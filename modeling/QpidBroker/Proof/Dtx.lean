import QpidBroker.Spec.Dtx

/-!
# Branches of distributed transactions: what their buffers are told

What the record of a branch and the histories of its buffers have to do with one
another is `DtxWorkRecord.Consistent`, kept by every call in order and by the
sessions (`Consistent.check`, `Consistent.aborted`, `Consistent.session`, …).
-/

namespace QB.Impl

open QB.Spec List

variable {Op : Type}

/-! ## Buffers -/

namespace DtxBuffer

@[simp] theorem prepare_history (p : Preparation Op) (b : DtxBuffer Op) :
    (b.prepare p).2.history = b.history ++ [.prepare] := rfl

@[simp] theorem commit_history (b : DtxBuffer Op) : b.commit.history = b.history ++ [.commit] := rfl

@[simp] theorem rollback_history (b : DtxBuffer Op) : b.rollback.history = b.history ++ [.rollback] := rfl

@[simp] theorem fail_history (b : DtxBuffer Op) : b.fail.history = b.history ++ [.rollback] := rfl

@[simp] theorem timedout_history (b : DtxBuffer Op) : b.timedout.history = b.history ++ [.rollback] := rfl

end DtxBuffer

namespace DtxWorkRecord

open DtxBuffer Branch

/-- The flags of a record agree with one another and with those of its buffers. -/
structure Marked (r : DtxWorkRecord Op) : Prop where
  prepared : r.prepared = true → r.completed = true
  unspoilt : r.prepared = true → r.expired = false → r.rolledback = false
  ended : r.completed = true → ∀ b ∈ r.work, b.ended = true
  expired : ∀ b ∈ r.work, b.expired = true → r.expired = true

/-- The record knows what has become of its buffers: until the branch is
completed, those that have not failed were told nothing, and from then on they
were told the same, unless the branch was aborted. -/
structure Consistent (committed : Prop) (r : DtxWorkRecord Op) : Prop extends Marked r where
  fresh : r.completed = false → r.expired = false → ∀ b ∈ r.work, b.failed = false → b.history = []
  uncommitted : ¬ committed → ∀ b ∈ r.work, .commit ∉ b.history
  alike : ¬ committed → r.completed = true → r.rolledback = false → r.expired = false → ¬ RolledBack r →
    ∀ b ∈ r.work, b.history = if r.prepared then [.prepare] else []
  finished : committed → r.completed = true ∧ r.expired = false ∧
    ∀ b ∈ r.work, b.history = [.prepare, .commit]

variable {committed committed' : Prop} {r r' : DtxWorkRecord Op}

theorem Consistent.congr (h : Consistent committed r) (hiff : committed ↔ committed') : Consistent committed' r :=
  propext hiff ▸ h

/-! ## The check -/

theorem checkLoop_true (work : List (DtxBuffer Op)) : (checkLoop true work).2 = true := by
  induction work with
  | nil => rfl
  | cons b work ih => by_cases hb : b.ended = true <;> simp [checkLoop, hb, ih]

/-- The check succeeds if every buffer ended, and remembers a rollback. -/
theorem checkLoop_spec (rolledback : Bool) (work : List (DtxBuffer Op)) (h : (checkLoop rolledback work).1 = true) :
    (∀ b ∈ work, b.ended = true) ∧ ((checkLoop rolledback work).2 = false →
      ∀ b ∈ work, b.failed = false) := by
  induction work generalizing rolledback with
  | nil => simp
  | cons b work ih =>
    by_cases he : b.ended = true
    swap
    · simp [checkLoop, he] at h
    simp only [checkLoop, he, if_true] at h ⊢
    obtain ⟨hended, hfai⟩ := ih _ h
    refine ⟨forall_mem_cons.2 ⟨he, hended⟩, fun hr => forall_mem_cons.2 ⟨?_, hfai hr⟩⟩
    refine Bool.eq_false_iff.2 fun hf => ?_
    rw [isRollbackOnly, hf, Bool.or_true, checkLoop_true] at hr
    cases hr

theorem check_cases (r : DtxWorkRecord Op) : (r.expired = true ∧ r.check = (.error .timeout, r)) ∨
    (r.expired = false ∧ r.completed = true ∧ r.check = (.ok !r.rolledback, r)) ∨
    (r.expired = false ∧ r.completed = false ∧ ∃ rolledback,
      r.check = (.error .notCompleted, { r with rolledback })) ∨
    (r.expired = false ∧ r.completed = false ∧ ∃ rolledback, (∀ b ∈ r.work, b.ended = true) ∧
      (rolledback = false → ∀ b ∈ r.work, b.failed = false) ∧
      r.check = (.ok !rolledback, { r with rolledback, completed := true })) := by
  by_cases he : r.expired = true
  · exact .inl ⟨he, by simp [check, he]⟩
  rw [Bool.not_eq_true] at he
  by_cases hc : r.completed = true
  · exact .inr (.inl ⟨he, hc, by simp [check, he, hc]⟩)
  rw [Bool.not_eq_true] at hc
  by_cases hl : (checkLoop r.rolledback r.work).1 = true
  · obtain ⟨hended, hfai⟩ := checkLoop_spec _ _ hl
    exact .inr (.inr (.inr ⟨he, hc, _, hended, hfai, by simp [check, he, hc, hl]⟩))
  · exact .inr (.inr (.inl ⟨he, hc, (checkLoop r.rolledback r.work).2, by simp [check, he, hc, hl]⟩))

theorem Marked.not_prepared (h : Marked r) (hc : r.completed = false) : r.prepared = false :=
  Bool.eq_false_iff.2 fun hp => Bool.eq_false_iff.1 hc (h.prepared hp)

theorem Marked.check (h : Marked r) : Marked r.check.2 := by
  rcases check_cases r with ⟨_, hr⟩ | ⟨_, _, hr⟩ | ⟨_, hc, _, hr⟩ |
    ⟨_, hc, _, hended, _, hr⟩ <;> rw [hr]
  · exact h
  · exact h
  · exact { h with unspoilt := fun hp => absurd hp (by simp [h.not_prepared hc]) }
  exact { h with
    prepared := fun _ => rfl
    unspoilt := fun hp => absurd hp (by simp [h.not_prepared hc])
    ended := fun _ => hended }

theorem Consistent.not_committed (h : Consistent committed r) (hc : r.completed = false) : ¬ committed :=
  fun hm => absurd (h.finished hm).1 (by simp [hc])

theorem Consistent.check (h : Consistent committed r) : Consistent committed r.check.2 := by
  have hmar := h.toMarked.check
  rcases check_cases r with ⟨_, hr⟩ | ⟨_, _, hr⟩ | ⟨_, hc, _, hr⟩ | ⟨he, hc, _, _, hfai, hr⟩ <;>
    rw [hr] at hmar ⊢
  · exact h
  · exact h
  · have hn := h.not_committed hc
    exact ⟨hmar, h.fresh, h.uncommitted, fun _ ht => absurd ht (by simp [hc]), fun hm => absurd hm hn⟩
  have hn := h.not_committed hc
  refine ⟨hmar, fun ht => (by cases ht), h.uncommitted, ?_, fun hm => absurd hm hn⟩
  intro _ _ hrb _ _ b hb
  rw [if_neg (by simp [h.not_prepared hc])]
  exact h.fresh hc he b hb (hfai hrb b hb)

theorem check_ok {ok : Bool} (hr : r.check = (.ok ok, r')) :
    r.expired = false ∧ r'.expired = false ∧ r'.completed = true ∧ r'.prepared = r.prepared ∧
      r'.work = r.work ∧ ok = !r'.rolledback := by
  rcases check_cases r with ⟨_, hr'⟩ | ⟨he, hc, hr'⟩ | ⟨_, _, _, hr'⟩ | ⟨he, _, _, _, _, hr'⟩
  · cases hr'.symm.trans hr
  · cases hr'.symm.trans hr
    exact ⟨he, he, hc, rfl, rfl, rfl⟩
  · cases hr'.symm.trans hr
  · cases hr'.symm.trans hr
    exact ⟨he, he, rfl, rfl, rfl, rfl⟩

/-- Where the check returns true, no buffer was told more than to prepare. -/
theorem Consistent.check_true (h : Consistent committed r) (hn : ¬ committed) (ha : ¬ Abandoned r)
    (hr : r.check = (.ok true, r')) :
    ∀ b ∈ r.work, b.history = if r.prepared then [.prepare] else [] := by
  rcases check_cases r with ⟨_, hr'⟩ | ⟨he, hc, hr'⟩ | ⟨_, _, _, hr'⟩ |
    ⟨he, hc, rolledback, _, hfai, hr'⟩
  · cases hr'.symm.trans hr
  · obtain ⟨hrb, _⟩ : r.rolledback = false ∧ r = r' := by simpa [hr'] using hr
    exact h.alike hn hc hrb he fun hb => ha ⟨hc, hrb, he, hb⟩
  · cases hr'.symm.trans hr
  obtain ⟨hrb, _⟩ : rolledback = false ∧ _ := by simpa [hr'] using hr
  intro b hb
  rw [if_neg (by simp [h.not_prepared hc])]
  exact h.fresh hc he b hb (hfai hrb b hb)

theorem not_rolledBack {prepared : Bool}
    (h : ∀ b ∈ r.work, b.history = if prepared then [.prepare] else []) : ¬ RolledBack r := by
  rintro ⟨b, hb, hrb⟩
  rw [h b hb] at hrb
  cases prepared <;> simp at hrb

/-! ## Telling the buffers -/

variable {work : List (DtxBuffer Op)} {p : Nat → Preparation Op} {i : Nat} {b : DtxBuffer Op}
  {f : DtxBuffer Op → DtxBuffer Op}

/-- Buffers that were told something are ended, or expired, as they were. -/
theorem Marked.told (h : Marked r) {txn : Bool}
    (hw : ∀ b' ∈ work, ∃ b ∈ r.work, b'.ended = b.ended ∧ b'.expired = b.expired) :
    Marked { r with txn, work } := by
  refine ⟨h.prepared, h.unspoilt, ?_, ?_⟩
  · intro hc b' hb'
    obtain ⟨b, hb, hended, _⟩ := hw b' hb'
    exact hended.trans (h.ended hc b hb)
  · intro b' hb' he
    obtain ⟨b, hb, _, hexp⟩ := hw b' hb'
    exact h.expired b hb (hexp.symm.trans he)

theorem Marked.toldAll (h : Marked r) {txn : Bool} (hf : ∀ b, (f b).ended = b.ended ∧ (f b).expired = b.expired) :
    Marked { r with txn, work := r.work.map f } := by
  refine h.told fun c hc => ?_
  obtain ⟨b, hb, rfl⟩ := mem_map.1 hc
  exact ⟨b, hb, hf b⟩

theorem Marked.abort (h : Marked r) : Marked r.abort := h.toldAll fun _ => ⟨rfl, rfl⟩

theorem Marked.commitWork (h : Marked r) : Marked r.commitWork := h.toldAll fun _ => ⟨rfl, rfl⟩

/-- A branch that is completed and not committed can be aborted, whatever its
buffers were told before but a commit. -/
theorem Consistent.aborted (hn : ¬ committed) (h : Marked r) (hc : r.completed = true)
    (hw : ∀ b ∈ r.work, .commit ∉ b.history) : Consistent committed r.abort := by
  refine ⟨h.abort, fun ht => ?_, fun _ c hcm => ?_, fun _ _ _ _ hrb c hcm => ?_, fun hm => absurd hm hn⟩
  · exact absurd (hc.symm.trans ht) (by simp)
  · obtain ⟨b, hb, rfl⟩ := mem_map.1 hcm
    simpa using hw b hb
  · obtain ⟨b, hb, rfl⟩ := mem_map.1 hcm
    exact absurd ⟨_, hcm, by simp⟩ hrb

theorem Consistent.abort (h : Consistent committed r) (hn : ¬ committed) (hc : r.completed = true) :
    Consistent committed r.abort :=
  .aborted hn h.toMarked hc (h.uncommitted hn)

/-- A buffer was prepared, or the loop failed and it is as it was. -/
theorem mem_prepareLoop {b' : DtxBuffer Op} (h : b' ∈ (prepareLoop p i work).2) :
    ∃ b ∈ work, b' = b ∧ (prepareLoop p i work).1 = false ∨ ∃ j, b' = (b.prepare (p j)).2 := by
  induction work generalizing i with
  | nil => cases h
  | cons b work ih =>
    by_cases hb : (b.prepare (p i)).1 = true
    · simp only [prepareLoop, hb, if_true, mem_cons] at h ⊢
      rcases h with rfl | h
      · exact ⟨b, .inl rfl, .inr ⟨i, rfl⟩⟩
      · obtain ⟨c, hc, h⟩ := ih h
        exact ⟨c, .inr hc, h⟩
    simp only [prepareLoop, hb, Bool.false_eq_true, if_false, mem_cons] at h ⊢
    rcases h with rfl | h
    · exact ⟨b, .inl rfl, .inr ⟨i, rfl⟩⟩
    · exact ⟨b', .inr h, .inl ⟨rfl, trivial⟩⟩

theorem Marked.prepareLoop (h : Marked r) (p : Nat → Preparation Op) (i : Nat) (txn : Bool) :
    Marked { r with txn, work := (prepareLoop p i r.work).2 } := by
  refine h.told fun b' hb' => ?_
  obtain ⟨b, hb, ⟨rfl, _⟩ | ⟨j, rfl⟩⟩ := mem_prepareLoop hb'
  · exact ⟨b', hb, rfl, rfl⟩
  · exact ⟨b, hb, rfl, rfl⟩

/-- Preparing commits nothing. -/
theorem prepareLoop_uncommitted
    (h : ∀ b ∈ work, .commit ∉ b.history) :
    ∀ b ∈ (DtxWorkRecord.prepareLoop p i work).2, .commit ∉ b.history := by
  intro b' hb'
  obtain ⟨b, hb, ⟨rfl, _⟩ | ⟨j, rfl⟩⟩ := mem_prepareLoop hb'
  · exact h b' hb
  · simpa using h b hb

theorem mem_prepareLoop_true {b' : DtxBuffer Op}
    (h : b' ∈ (prepareLoop p i work).2) (hw : (prepareLoop p i work).1 = true) :
    ∃ b ∈ work, b'.history = b.history ++ [.prepare] := by
  obtain ⟨b, hb, ⟨_, hf⟩ | ⟨j, rfl⟩⟩ := mem_prepareLoop h
  · cases hw.symm.trans hf
  · exact ⟨b, hb, rfl⟩

/-! ## The calls -/

theorem Marked.setPrepared (h : Marked r) (hc : r.completed = true) (hr : r.rolledback = false) :
    Marked { r with prepared := true } :=
  ⟨fun _ => hc, fun _ _ => hr, h.ended, h.expired⟩

theorem Marked.prepare (h : Marked r) (p : Nat → Preparation Op) : Marked (r.prepare p).2 := by
  have hche := h.check
  unfold DtxWorkRecord.prepare
  rcases hr : r.check with ⟨e | ok, r'⟩ <;> rw [hr] at hche
  · exact hche
  obtain ⟨_, _, hc, _, _, hok⟩ := check_ok hr
  cases ok with
  | false => exact hche.abort
  | true =>
    dsimp only
    split
    · exact (hche.prepareLoop p 0 true).setPrepared hc (by simpa using hok)
    · exact (hche.prepareLoop p 0 true).abort

/-- Preparing keeps a record consistent that is not committed. -/
theorem Consistent.prepare (h : Consistent committed r) (hn : ¬ committed) (ha : ¬ Abandoned r)
    (hp : r.prepared = true → r.expired = true) (p : Nat → Preparation Op) :
    Consistent committed (r.prepare p).2 ∧ ((r.prepare p).1 = .ok true → ¬ RolledBack r) := by
  have hmar := h.toMarked.prepare p
  have hche := h.check
  unfold DtxWorkRecord.prepare at hmar ⊢
  rcases hr : r.check with ⟨e | ok, r'⟩ <;> rw [hr] at hche hmar
  · exact ⟨hche, fun ht => by cases ht⟩
  obtain ⟨he, _, hc, hprep, hwork, _⟩ := check_ok hr
  have hp' : r'.prepared = false :=
    hprep.trans (Bool.eq_false_iff.2 fun hp' => Bool.eq_false_iff.1 he (hp hp'))
  cases ok with
  | false => exact ⟨hche.abort hn hc, fun ht => by simp [hp'] at ht⟩
  | true =>
    have halike := h.check_true hn ha hr
    have hunc := prepareLoop_uncommitted (p := p) (i := 0) (hche.uncommitted hn)
    dsimp only at hmar ⊢
    split at hmar
    swap
    · rename_i hw
      rw [if_neg hw]
      exact ⟨.aborted hn (hche.toMarked.prepareLoop p 0 true) hc hunc, fun ht => by simp [hp'] at ht⟩
    rename_i hw
    rw [if_pos hw]
    refine ⟨⟨hmar, fun ht => ?_, fun _ => hunc, ?_, fun hm => absurd hm hn⟩,
      fun _ => not_rolledBack halike⟩
    · exact absurd (hc.symm.trans ht) (by simp)
    intro _ _ _ _ _ b' hb'
    obtain ⟨b, hb, hhist⟩ := mem_prepareLoop_true hb' hw
    rw [hhist, halike b (hwork ▸ hb), ← hprep, hp']
    rfl

theorem Marked.commit (h : Marked r) (onePhase : Bool) (p : Nat → Preparation Op) :
    Marked (r.commit onePhase p).2 := by
  have hche := h.check
  unfold DtxWorkRecord.commit
  rcases hr : r.check with ⟨e | ok, r'⟩ <;> rw [hr] at hche
  · exact hche
  cases ok with
  | false => exact hche.abort
  | true =>
    dsimp only
    split
    · split
      · exact hche
      · split
        · exact Marked.commitWork ⟨hche.prepared, hche.unspoilt, hche.ended, hche.expired⟩
        · exact hche
    split
    · split
      · exact (hche.prepareLoop p 0 r'.txn).commitWork
      · exact (hche.prepareLoop p 0 r'.txn).abort
    · exact hche

/-- A commit tells every buffer, each of them prepared. -/
theorem Consistent.commitWork (h : Marked r) (hc : r.completed = true) (he : r.expired = false)
    (hw : ∀ b ∈ r.work, b.history = [.prepare]) : Consistent True r.commitWork := by
  refine ⟨h.commitWork, fun ht => ?_, fun hf => absurd trivial hf, fun hf => absurd trivial hf,
    fun _ => ⟨hc, he, fun c hcm => ?_⟩⟩
  · exact absurd (hc.symm.trans ht) (by simp)
  · obtain ⟨b, hb, rfl⟩ := mem_map.1 hcm
    simp [hw b hb]

/-- A branch is committed if this reports success, and not otherwise. -/
theorem Consistent.commit (h : Consistent committed r) (hn : ¬ committed) (ha : ¬ Abandoned r) (onePhase : Bool)
    (p : Nat → Preparation Op) :
    Consistent ((r.commit onePhase p).1 = .ok true) (r.commit onePhase p).2 ∧
      ((r.commit onePhase p).1 = .ok true → ¬ RolledBack r) := by
  have hche := h.check
  unfold DtxWorkRecord.commit
  rcases hr : r.check with ⟨e | ok, r'⟩ <;> rw [hr] at hche
  · exact ⟨hche.congr (by simp [hn]), fun ht => by cases ht⟩
  obtain ⟨_, he, hc, hprep, hwork, _⟩ := check_ok hr
  cases ok with
  | false => exact ⟨(hche.abort hn hc).congr (by simp [hn]), fun ht => by cases ht⟩
  | true =>
    have halike := h.check_true hn ha hr
    have hnot := not_rolledBack halike
    have hmar := hche.toMarked
    rw [← hwork, ← hprep] at halike
    dsimp only
    split
    · rename_i hp
      split
      · exact ⟨hche.congr (by simp [hn]), fun _ => hnot⟩
      split
      · refine ⟨Consistent.congr (.commitWork ?_ hc he fun b hb => ?_) (by simp), fun _ => hnot⟩
        · exact ⟨hmar.prepared, hmar.unspoilt, hmar.ended, hmar.expired⟩
        · simpa [hp] using halike b hb
      · exact ⟨hche.congr (by simp [hn]), fun _ => hnot⟩
    rename_i hp
    split
    swap
    · exact ⟨hche.congr (by simp [hn]), fun _ => hnot⟩
    split
    · rename_i hw
      refine ⟨Consistent.congr (.commitWork (hmar.prepareLoop p 0 r'.txn) hc he fun b' hb' => ?_) (by simp),
        fun _ => hnot⟩
      obtain ⟨b, hb, hhist⟩ := mem_prepareLoop_true hb' hw
      simpa [hp, halike b hb] using hhist
    · have hunc := prepareLoop_uncommitted (p := p) (i := 0) (hche.uncommitted hn)
      exact ⟨Consistent.congr (.aborted hn (hmar.prepareLoop p 0 r'.txn) hc hunc) (by simp [hn]),
        fun _ => hnot⟩

theorem Marked.rollback (h : Marked r) : Marked r.rollback.2 := by
  have hche := h.check
  unfold DtxWorkRecord.rollback
  rcases hr : r.check with ⟨e | ok, r'⟩ <;> rw [hr] at hche
  · exact hche
  · exact hche.abort

theorem Consistent.rollback (h : Consistent committed r) (hn : ¬ committed) : Consistent committed r.rollback.2 := by
  have hche := h.check
  unfold DtxWorkRecord.rollback
  rcases hr : r.check with ⟨e | ok, r'⟩ <;> rw [hr] at hche
  · exact hche
  · obtain ⟨_, _, hc, _⟩ := check_ok hr
    exact hche.abort hn hc

theorem Marked.timedout (h : Marked r) : Marked r.timedout := by
  refine ⟨h.prepared, fun _ ht => (by cases ht), fun hc c hcm => ?_, fun _ _ _ => rfl⟩
  obtain ⟨b, hb, rfl⟩ := mem_map.1 hcm
  exact h.ended hc b (by simpa [expireWork, show r.completed = true from hc] using hb)

theorem Consistent.timedout (h : Consistent committed r) (hn : ¬ committed) : Consistent committed r.timedout := by
  refine ⟨h.toMarked.timedout, fun _ ht => (by cases ht), fun _ c hcm => ?_, fun _ _ _ ht => (by cases ht),
    fun hm => absurd hm hn⟩
  obtain ⟨b', hb', rfl⟩ := mem_map.1 hcm
  have hcom : .commit ∉ b'.history := by
    simp only [expireWork] at hb'
    split at hb'
    · exact h.uncommitted hn b' hb'
    obtain ⟨b, hb, rfl⟩ := mem_map.1 hb'
    have := h.uncommitted hn b hb
    split
    · exact this
    · simpa using this
  simpa using hcom

theorem add_cases (r : DtxWorkRecord Op) (b : DtxBuffer Op) : (∃ e, r.add b = (.error e, r)) ∨
    (r.expired = false ∧ r.completed = false ∧ r.add b = (.ok (), { r with work := r.work ++ [b] })) := by
  unfold DtxWorkRecord.add
  split
  · exact .inl ⟨_, rfl⟩
  · split
    · exact .inl ⟨_, rfl⟩
    · exact .inr ⟨by simp_all, by simp_all, rfl⟩

theorem Marked.add (h : Marked r) (he : b.expired = false) : Marked (r.add b).2 := by
  rcases add_cases r b with ⟨e, hr⟩ | ⟨_, hc, hr⟩ <;> rw [hr]
  · exact h
  refine ⟨h.prepared, h.unspoilt, fun ht => absurd ht (by simp [hc]), fun c hcm hexp => ?_⟩
  rcases mem_append.1 hcm with hcm | hcm
  · exact h.expired c hcm hexp
  · rw [mem_singleton.1 hcm, he] at hexp
    cases hexp

theorem Consistent.add (h : Consistent committed r) (hb : b.history = []) (he : b.expired = false) :
    Consistent committed (r.add b).2 := by
  have hmar := h.toMarked.add he
  rcases add_cases r b with ⟨e, hr⟩ | ⟨_, hc, hr⟩ <;> rw [hr] at hmar ⊢
  · exact h
  have hn := h.not_committed hc
  refine ⟨hmar, fun _ hexp c hcm hf => ?_, fun _ c hcm => ?_, fun _ ht => absurd ht (by simp [hc]),
    fun hm => absurd hm hn⟩
  · rcases mem_append.1 hcm with hcm | hcm
    · exact h.fresh hc hexp c hcm hf
    · rwa [mem_singleton.1 hcm]
  · rcases mem_append.1 hcm with hcm | hcm
    · exact h.uncommitted hn c hcm
    · simp [mem_singleton.1 hcm, hb]

theorem Marked.recover (h : Marked r) (hw : r.work = []) (hr : r.rolledback = false)
    (he : b.expired = false) : Marked (r.recover b).2 := by
  unfold DtxWorkRecord.recover
  rcases add_cases r b.markEnded with ⟨e, hadd⟩ | ⟨_, hc, hadd⟩ <;> rw [hadd]
  · exact h
  have hmem : ∀ c ∈ r.work ++ [b.markEnded], c = b.markEnded := by simp [hw]
  refine ⟨fun _ => rfl, fun _ _ => hr, fun _ c hcm => ?_, fun c hcm hexp => ?_⟩
  · rw [hmem c hcm]
    rfl
  · rw [hmem c hcm] at hexp
    cases he.symm.trans hexp

/-- A recovered buffer was prepared before the restart. -/
theorem Consistent.recover (h : Consistent committed r) (hw : r.work = []) (hr : r.rolledback = false)
    (hb : b.history = [.prepare]) (he : b.expired = false) :
    Consistent committed (r.recover b).2 := by
  have hmar := h.toMarked.recover hw hr he
  unfold DtxWorkRecord.recover at hmar ⊢
  rcases add_cases r b.markEnded with ⟨e, hadd⟩ | ⟨_, hc, hadd⟩ <;> rw [hadd] at hmar ⊢
  · exact h
  have hn := h.not_committed hc
  have hmem : ∀ c ∈ r.work ++ [b.markEnded], c.history = [.prepare] := by
    intro c hcm
    rw [hw, nil_append, mem_singleton] at hcm
    rw [hcm]
    exact hb
  refine ⟨hmar, fun ht => (by cases ht), fun _ c hcm => ?_, fun _ _ _ _ _ c hcm => hmem c hcm,
    fun hm => absurd hm hn⟩
  rw [hmem c hcm]
  decide

/-- What a session does with a buffer that it holds: it is of a branch that is
not completed, or that has timed out. -/
theorem session_cases (h : Marked r) (hs : session r i f = some r') :
    (r.completed = true → r.expired = true) ∧ ∃ b ∈ r.work, r' = { r with work := r.work.set i (f b) } := by
  obtain ⟨b, hi, hs⟩ := Option.bind_eq_some_iff.1 hs
  have hb := mem_of_getElem? hi
  split at hs
  · cases hs
  rename_i hheld
  cases hs
  refine ⟨fun hc => h.expired b hb ?_, b, hb, rfl⟩
  simpa [h.ended hc b hb] using hheld

theorem Marked.session (h : Marked r) (hs : session r i f = some r')
    (hf : ∀ b, (f b).expired = b.expired ∧ (b.ended = true → (f b).ended = true)) : Marked r' := by
  obtain ⟨_, b, hb, rfl⟩ := session_cases h hs
  refine ⟨h.prepared, h.unspoilt, fun hc c hcm => ?_, fun c hcm hce => ?_⟩
  · rcases mem_or_eq_of_mem_set hcm with hcm | rfl
    · exact h.ended hc c hcm
    · exact (hf b).2 (h.ended hc b hb)
  · rcases mem_or_eq_of_mem_set hcm with hcm | rfl
    · exact h.expired c hcm hce
    · exact h.expired b hb ((hf b).1.symm.trans hce)

theorem Consistent.session (h : Consistent committed r) (hs : session r i f = some r')
    (hf : ∀ b, (f b).expired = b.expired ∧ (b.ended = true → (f b).ended = true))
    (hh : ∀ b, ((f b).failed = false → b.failed = false ∧ (f b).history = b.history) ∧
      (.commit ∈ (f b).history → .commit ∈ b.history)) : Consistent committed r' := by
  have hmar := h.toMarked.session hs hf
  obtain ⟨hheld, b, hb, rfl⟩ := session_cases h.toMarked hs
  have hn : ¬ committed := by
    intro hm
    obtain ⟨hc, he, _⟩ := h.finished hm
    exact absurd (hheld hc) (by simp [he])
  refine ⟨hmar, fun hc he c hcm hcf => ?_, fun _ c hcm => ?_, fun _ hc _ he => ?_, fun hm => absurd hm hn⟩
  · rcases mem_or_eq_of_mem_set hcm with hcm | rfl
    · exact h.fresh hc he c hcm hcf
    · obtain ⟨hbf, hhist⟩ := (hh b).1 hcf
      exact hhist.trans (h.fresh hc he b hb hbf)
  · rcases mem_or_eq_of_mem_set hcm with hcm | rfl
    · exact h.uncommitted hn c hcm
    · exact fun hc => h.uncommitted hn b hb ((hh b).2 hc)
  · exact absurd (hheld hc) (by simp [show r.expired = false from he])

end DtxWorkRecord

/-! ## Runs -/

namespace Branch

open DtxWorkRecord QB.Spec.Branch

theorem committed_report (s : Branch Op) (call : TxCall) (result : Result Op Bool) :
    (s.report call result).Committed ↔ s.Committed ∨ call = .commit ∧ result.1 = .ok true := by
  have hok : ∀ x : Except DtxThrown Bool, x.toOption = some true ↔ x = .ok true := by
    intro x
    cases x <;> simp [Except.toOption]
  simp [Branch.Committed, Branch.report, hok]

/-- The record is marked, and consistent with what was reported. -/
structure Kept (s : Branch Op) : Prop where
  consistent : Consistent s.Committed s.record
  final : ∀ rep ∈ s.reports, rep.late = true → rep.success = false

variable {s : Branch Op}

theorem Kept.atomic (h : Kept s) : s.Atomic where
  committed := by
    intro hc b hb
    rw [(h.consistent.finished hc).2.2 b hb]
    decide
  exclusive := by
    rintro ⟨b, hb, hrb⟩
    refine h.consistent.uncommitted fun hc => ?_
    rw [(h.consistent.finished hc).2.2 b hb] at hrb
    simp at hrb
  final := h.final

/-- A call that reports keeps the state if a success is the first thing to
become of the branch. -/
theorem Kept.report (h : Kept s) {call : TxCall} {result : Result Op Bool}
    (hc : Consistent (s.Committed ∨ call = .commit ∧ result.1 = .ok true) result.2)
    (hr : result.1 = .ok true → ¬ RolledBack s.record) : Kept (s.report call result) where
  consistent := hc.congr (committed_report s call result).symm
  final := by
    intro rep hrep hlate
    rcases mem_append.1 hrep with hrep | hrep
    · exact h.final rep hrep hlate
    rw [mem_singleton.1 hrep] at hlate ⊢
    simp only [decide_eq_true_eq] at hlate
    rw [decide_eq_false_iff_not]
    intro hs
    rcases hres : result.1 with e | ok
    · simp [hres, Except.toOption] at hs
    · refine hr ?_ hlate
      simpa [hres, Except.toOption] using hs

theorem Kept.session {s' : Branch Op} (h : Kept s) {i : Nat} {f : DtxBuffer Op → DtxBuffer Op}
    (hs : (session s.record i f).map (fun record => { s with record }) = some s')
    (hf : ∀ b, (f b).expired = b.expired ∧ (b.ended = true → (f b).ended = true))
    (hh : ∀ b, ((f b).failed = false → b.failed = false ∧ (f b).history = b.history) ∧
      (.commit ∈ (f b).history → .commit ∈ b.history)) : Kept s' := by
  obtain ⟨r, hr, rfl⟩ := Option.map_eq_some_iff.1 hs
  exact ⟨h.consistent.session hr hf hh, h.final⟩

/-- Every call in order keeps it. -/
theorem Kept.step {s' : Branch Op} {call : Branch.Call Op} (h : Kept s) (hok : s.InOrder call)
    (hs : s.step call = some s') : Kept s' := by
  cases call with
  | add ops ended failed =>
    cases hs
    exact ⟨h.consistent.add rfl rfl, h.final⟩
  | recover ops =>
    cases hs
    exact ⟨h.consistent.recover (length_eq_zero_iff.1 hok.1) hok.2 rfl rfl, h.final⟩
  | prepare p =>
    cases hs
    obtain ⟨hn, ha, hp⟩ := hok
    obtain ⟨hc, hr⟩ := h.consistent.prepare hn ha hp p
    exact h.report (hc.congr (by simp)) hr
  | commit onePhase p =>
    cases hs
    obtain ⟨hn, ha⟩ := hok
    obtain ⟨hc, hr⟩ := h.consistent.commit hn ha onePhase p
    exact h.report (hc.congr (by simp [hn])) hr
  | rollback =>
    cases hs
    exact ⟨h.consistent.rollback hok, h.final⟩
  | timedout =>
    cases hs
    exact ⟨h.consistent.timedout hok, h.final⟩
  | enlist i op => exact h.session hs (fun b => ⟨rfl, id⟩) fun b => ⟨fun hf => ⟨hf, rfl⟩, id⟩
  | markEnded i => exact h.session hs (fun b => ⟨rfl, fun _ => rfl⟩) fun b => ⟨fun hf => ⟨hf, rfl⟩, id⟩
  | fail i => exact h.session hs (fun b => ⟨rfl, fun _ => rfl⟩) fun b => ⟨fun hf => (by cases hf), by simp⟩

theorem Kept.initial : Kept ({} : Branch Op) where
  consistent := by
    refine ⟨⟨?_, ?_, ?_, ?_⟩, ?_, ?_, ?_, ?_⟩ <;> simp [Branch.Committed]
  final := by simp

/-- A branch is atomic, in every state that calls in order lead to. -/
theorem inOrder_atomic {s : Branch Op} {calls : List (Branch.Call Op)}
    (h : Run Branch.step Branch.InOrder {} calls s) : s.Atomic :=
  (h.keep (fun hk hok hs => hk.step hok hs) Kept.initial).atomic

/-- Two sessions that take part in a branch, which is then prepared and committed. -/
theorem inOrder_atomic_two_sessions : ∃ s : Branch Nat,
    (Run Branch.step Branch.InOrder {} [.add [] false false, .add [] false false, .enlist 0 5, .markEnded 0,
      .enlist 1 6, .markEnded 1, .prepare fun _ => ⟨true, fun _ => .ok true⟩,
      .commit false fun _ => ⟨true, fun _ => .ok true⟩] s ∧ s.Committed ∧ s.record.work.length = 2) ∧
    s.Atomic := by
  exact exists_run (by decide +kernel) fun s hs hg => ⟨⟨hs, hg⟩, inOrder_atomic hs⟩

/-- An operation cannot be prepared, so that the branch is aborted; the commit
that follows has nothing left to do, and reports success. -/
theorem aborted_commits : ∃ s : Branch Nat,
    Run Branch.step (fun _ _ => True) {} [.add [5] true false, .prepare fun _ => ⟨true, fun _ => .ok false⟩,
      .commit true fun _ => ⟨true, fun _ => .ok false⟩] s ∧ ¬ s.Atomic := by
  refine exists_run (Q := fun s => s.reports = [⟨.prepare, false, false⟩, ⟨.commit, true, true⟩])
    (by decide +kernel)
    fun s hs hg => ⟨hs, fun h => ?_⟩
  have := h.final ⟨.commit, true, true⟩ (by simp [hg]) rfl
  cases this

end Branch

end QB.Impl
