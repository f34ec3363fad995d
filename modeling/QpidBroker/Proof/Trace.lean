import QpidBroker.Spec.Trace

/-!
# Traces

An id that is added is compared with the trace as received, and not with what was added since: so
the trace is exact as long as at most one id is added between two brokers, and it is not a part of
another. What is excluded is read from the trace as received alone.
-/

namespace QB.Spec.Trace

open Impl List

theorem listed_append (a b : Text) : listed (a ++ ',' :: b) = listed a ++ listed b := by
  rw [listed, Text.split, splitOnP_append_cons a b (by decide), filter_append]
  rfl

theorem infix_of_mem_splitOnP (p : Char → Bool) (t : Text) {x : Text} {xs : List Text} (h : t.splitOnP p = x :: xs) :
    x <+: t ∧ ∀ y ∈ xs, y <:+: t := by
  induction t generalizing x xs with
  | nil => simp_all
  | cons c t ih =>
    obtain ⟨y, ys, hy⟩ := exists_cons_of_ne_nil (splitOnP_ne_nil p t)
    obtain ⟨hpre, hin⟩ := ih hy
    have hpost {z : Text} : z <:+: t → z <:+: c :: t := (·.trans (suffix_cons c t).isInfix)
    rw [splitOnP_cons_eq_if_modifyHead, hy] at h
    split at h
    · cases h
      exact ⟨ nil_prefix, forall_mem_cons.2 ⟨hpost hpre.isInfix, fun z hz => hpost (hin z hz)⟩⟩
    · cases h
      exact ⟨(prefix_cons_inj c).2 hpre, fun z hz => hpost (hin z hz)⟩

theorem listed_id {id : Text} (hne : id ≠ []) (hc : ',' ∉ id) (hs : ' ' ∉ id) : listed id = [id] := by
  have hsep : ∀ c ∈ id, [',', ' '].contains c = false := by
    intro c hid
    simp only [contains_eq_mem, mem_cons, not_mem_nil, or_false, decide_eq_false_iff_not]
    rintro (rfl | rfl)
    · exact hc hid
    · exact hs hid
  rw [listed, Text.split, splitOnP_eq_singleton hsep]
  simpa using hne

theorem ne_nil_of_mem_listed {x trace : Text} (h : x ∈ listed trace) : x ≠ [] := by
  simpa using (mem_filter.1 h).2

theorem infix_of_mem_listed {x trace : Text} (h : x ∈ listed trace) : x <:+: trace := by
  have hmem := (mem_filter.1 h).1
  obtain ⟨y, ys, hy⟩ := exists_cons_of_ne_nil (splitOnP_ne_nil _ trace)
  obtain ⟨hpre, hin⟩ := infix_of_mem_splitOnP _ trace hy
  rw [hy] at hmem
  rcases mem_cons.1 hmem with rfl | hmem
  · exact hpre.isInfix
  · exact hin x hmem

theorem ids_addTraceId {m : TracedMessage} {id : Text} (hne : id ≠ []) (hc : ',' ∉ id) (hs : ' ' ∉ id) :
    ids (m.addTraceId id) = if m.encoding ≠ [] ∧ id <:+: m.encoding then ids m else listed m.encoding ++ [id] := by
  by_cases he : m.encoding = []
  · simp only [ids, TracedMessage.addTraceId, he, isEmpty_nil, if_true, Option.getD_some, listed_id hne hc hs]
    rfl
  by_cases hi : id <:+: m.encoding
  · simp [TracedMessage.addTraceId, he, hi]
  · simp [ids, TracedMessage.addTraceId, he, hi, listed_append, listed_id hne hc hs]

theorem isExcluded_iff {m : TracedMessage} {excludes : List Text} :
    m.isExcluded excludes = true ↔ ∃ x ∈ excludes, x ∈ listed m.encoding := by
  by_cases he : m.encoding = []
  · simp [TracedMessage.isExcluded, he, listed, Text.split]
  · simp [TracedMessage.isExcluded, he, listed]

namespace History

/-- From a history with an exact trace a step leads to one if and only if it is fair. -/
theorem exact_step_iff {h h' : History} {op : Op} (hx : h.Exact) (hn : (listed h.message.encoding).Nodup)
    (hop : h.Separate op) (hs : h.step op = some h') : h'.Exact ↔ h.Fair op := by
  cases op with
  | clearTrace =>
    cases hs
    simp [Exact, Fair, ids, listed, Text.split, TracedMessage.clearTrace]
  | sendHeader =>
    cases hs
    exact iff_of_true hx trivial
  | addTraceId id =>
    cases hs
    by_cases hne : id = []
    · refine iff_of_false (fun hx' => ?_) (fun hf => hf.1 hne)
      exact ne_nil_of_mem_listed ((hx'.2 id).2 mem_cons_self) hne
    simp only [Exact, Fair, ids_addTraceId hne hop.1 hop.2, ne_eq, hne, not_false_eq_true, true_and, mem_cons]
    split
    · refine ⟨fun hx' => (hx'.2 id).2 (.inl rfl), fun hin => ⟨hx.1, fun x => ?_⟩⟩
      rw [← hx.2, or_iff_right_of_imp]
      rintro rfl
      exact hin
    rename_i hout
    have hnew : id ∉ listed h.message.encoding := by
      intro hin
      exact hout ⟨fun he => by simp [he, listed, Text.split] at hin, infix_of_mem_listed hin⟩
    have hnodup : (listed h.message.encoding ++ [id]).Nodup := by
      simpa [nodup_append, hn] using fun x hmem => ne_of_mem_of_not_mem hmem hnew
    simp only [hnodup, true_and, mem_append, mem_singleton, ← hx.2]
    constructor
    · intro hx' x _ hxid
      simpa [hxid, iff_comm] using hx' x
    intro hf x
    by_cases hxid : x = id
    · simp [hxid]
    have := hf x
    tauto

theorem nodup_step {h h' : History} {op : Op} (hx : h.Exact) (hn : (listed h.message.encoding).Nodup)
    (hs : h.step op = some h') : (listed h'.message.encoding).Nodup := by
  cases op with
  | addTraceId id =>
    cases hs
    have : (h.message.addTraceId id).encoding = h.message.encoding := by
      simp only [TracedMessage.addTraceId]
      split <;> [rfl; split <;> rfl]
    rwa [this]
  | clearTrace => cases hs; exact hn
  | sendHeader => cases hs; exact hx.1

/-- **Traces.** In every run from a message whose trace lists each id once, and in which every step
is fair, the trace is exact; a step that is not fair leads to one that is not. What is excluded
is exact if and only if the trace has the ids it had when the message was received. -/
theorem trace_exact_iff {trace : Text} {ops : List Op} {h : History} (hd : (listed trace).Nodup)
    (hrun : Run step (fun h op => h.Separate op ∧ h.Fair op) ⟨⟨trace, none⟩, listed trace⟩ ops h) :
    h.Exact ∧ (∀ op h', h.Separate op → h.step op = some h' → (h'.Exact ↔ h.Fair op)) ∧
      (h.Excludes ↔ ∀ x, x ∈ ids h.message ↔ x ∈ listed h.message.encoding) := by
  obtain ⟨hx, hn⟩ : h.Exact ∧ (listed h.message.encoding).Nodup :=
    hrun.keep (I := fun h => h.Exact ∧ (listed h.message.encoding).Nodup)
      (fun hi ho hs => ⟨(exact_step_iff hi.1 hi.2 ho.1 hs).2 ho.2, nodup_step hi.1 hi.2 hs⟩)
      ⟨⟨hd, fun _ => .rfl⟩, hd⟩
  refine ⟨hx, fun op h' => exact_step_iff hx hn, fun he x => ?_, fun hr excludes => ?_⟩
  · have := he [x]
    rw [isExcluded_iff] at this
    simpa [hx.2, iff_comm] using this
  · simp [isExcluded_iff, ← hr, hx.2]

/-- A message passes a queue of each of two brokers, and comes to a third. -/
theorem trace_exact_iff_two : ∃ h, Run step (fun h op => h.Separate op ∧ h.Fair op) ⟨⟨[], none⟩, listed []⟩
    [.addTraceId ['a'], .sendHeader, .addTraceId ['b'], .sendHeader] h ∧
      ids h.message = [['a'], ['b']] ∧ h.Exact := by
  exact exists_run (by decide +kernel) fun h hrun hids => ⟨hrun, hids, (trace_exact_iff (by decide) hrun).1⟩

/-- A message passes two queues of one broker, which keeps the second id alone; one with the id `ab` is not
given the id `a`; one whose trace was cleared has it again once an id is added; and an id that was added
excludes nothing on the same broker. -/
theorem trace_not_exact :
    (∃ h, Run step Separate ⟨⟨[], none⟩, listed []⟩ [.addTraceId ['a'], .addTraceId ['b']] h ∧
      ¬ h.Exact) ∧
    (∃ h, Run step Separate ⟨⟨['a', 'b'], none⟩, listed ['a', 'b']⟩ [.addTraceId ['a']] h ∧ ¬ h.Exact) ∧
    (∃ h, Run step Separate ⟨⟨['a'], none⟩, listed ['a']⟩ [.clearTrace, .addTraceId ['b']] h ∧
      ¬ h.Exact) ∧
    ∃ h, Run step Separate ⟨⟨[], none⟩, listed []⟩ [.addTraceId ['a']] h ∧ ¬ h.Excludes := by
  have differ {h : History} (hq : ¬ (['a'] ∈ ids h.message ↔ ['a'] ∈ h.added)) :
      ¬ h.Exact := fun hx => hq (hx.2 _)
  refine ⟨?_, ?_, ?_, ?_⟩
  · exact exists_run (by decide +kernel) fun h hrun hq => ⟨hrun, differ hq⟩
  · exact exists_run (by decide +kernel) fun h hrun hq => ⟨hrun, differ hq⟩
  · exact exists_run (by decide +kernel) fun h hrun hq => ⟨hrun, differ hq⟩
  · refine exists_run (Q := fun h => h.message.isExcluded [['a']] = false ∧ ['a'] ∈ h.added) (by decide +kernel)
      fun h hrun hq => ⟨hrun, fun he => ?_⟩
    exact Bool.false_ne_true (hq.1.symm.trans ((he _).2 ⟨_, mem_singleton_self _, hq.2⟩))

end History

end QB.Spec.Trace
