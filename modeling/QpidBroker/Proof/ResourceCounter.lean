import QpidBroker.Framework.Assoc
import QpidBroker.Framework.Run
import QpidBroker.Spec.ResourceCounter

/-!
# Quotas count the queues there are

`Sound`: the count of each user is the number of the user's queues, and the owner recorded
for a name is the owner of the queue. A step keeps it if it meets `Kept` (`Sound.step`), and
only then are the counts right after it (`Sound.count_ne`): a creation that is let through
has to go on to create the queue, and no count may go over sixteen bits.
-/

namespace QB.Impl.Acl.Broker

open List Function

variable {s t : Broker}

/-- Counts and owners are those of the queues. -/
structure Sound (s : Broker) : Prop where
  nodup : (s.queues.map Prod.fst).Nodup
  counts (user : Text) : s.counter.queuePerUserMap user = if s.owned user = 0 then none else some (s.owned user)
  small (user : Text) : s.owned user < 2 ^ 16
  owners (name : Text) : s.counter.queueOwnerMap name = s.queues.lookup name

theorem Sound.count_eq (h : Sound s) (user : Text) : s.count user = s.owned user := by
  unfold count
  rw [h.counts]
  split
  · next h0 => rw [h0]; rfl
  · rfl

/-! ## Counting -/

theorem Sound.limitApproveLH (h : Sound s) (user : Text) (limit : Nat) (enforce : Bool) :
    ResourceCounter.limitApproveLH s.counter.queuePerUserMap user limit enforce =
      if enforce && limit ≤ s.owned user then (false, s.counter.queuePerUserMap)
      else (true, update s.counter.queuePerUserMap user (some ((s.owned user + 1) % 2 ^ 16))) := by
  unfold ResourceCounter.limitApproveLH
  have hsmall := h.small user
  rw [h.counts]
  by_cases h0 : s.owned user = 0
  · rw [h0]
    by_cases hl : limit = 0 <;> cases enforce <;> simp
  · rw [if_neg h0]
    simp only [Nat.mod_eq_of_lt hsmall]
    cases enforce <;> by_cases hl : limit ≤ s.owned user <;> simp [hl]

/-- A queue is counted unless the quota is reached. -/
theorem Sound.approveCreateQueue (h : Sound s) (user name : Text) : s.approveCreateQueue user name =
      if s.full user then (false, s)
      else (true, { s with counter := ⟨update s.counter.queueOwnerMap name (some user),
        update s.counter.queuePerUserMap user (some ((s.owned user + 1) % 2 ^ 16))⟩ }) := by
  unfold Broker.approveCreateQueue ResourceCounter.approveCreateQueue full
  simp only [h.limitApproveLH]
  by_cases hf : (s.acl.queueQuotaRulesExist && decide ((s.acl.getQueueQuotaForUser user).2 ≤ s.owned user)) = true
  · rw [if_pos hf, if_pos hf]
  · rw [if_neg hf, if_neg hf]

theorem Sound.createQueue [LexicalCast] (h : Sound s) (q : CreateQueue) : s.createQueue q =
      if !s.authorise q.userId .create .queue q.name q.params then (.denied, s)
      else if s.find q.name then s.declare q
      else if s.full q.userId then (.overQuota, s)
      else ({ s with counter := ⟨update s.counter.queueOwnerMap q.name (some q.userId),
        update s.counter.queuePerUserMap q.userId
          (some ((s.owned q.userId + 1) % 2 ^ 16))⟩ } : Broker).declare q := by
  unfold Broker.createQueue
  rw [h.approveCreateQueue]
  split
  · rfl
  split
  · rfl
  · by_cases hf : s.full q.userId = true
    · rw [if_pos hf, if_pos hf]
    · rw [if_neg hf, if_neg hf]

variable {q : CreateQueue}

theorem declare_of_find (hf : s.find q.name = true) : (s.declare q).2 = s := by
  unfold declare
  split <;> rfl

/-! ## Creating -/

theorem owned_cons (s : Broker) (name user u : Text) :
    owned { s with queues := (name, user) :: s.queues } u = s.owned u + if user = u then 1 else 0 := by
  unfold owned
  rw [countP_cons]
  simp

/-- A queue that is created and counted. -/
theorem Sound.created (h : Sound s) {name user : Text} (hf : s.find name = false)
    (hsmall : s.owned user + 1 < 2 ^ 16) :
    Sound { s with
      counter := ⟨update s.counter.queueOwnerMap name (some user),
        update s.counter.queuePerUserMap user (some ((s.owned user + 1) % 2 ^ 16))⟩
      queues := (name, user) :: s.queues } := by
  have howned (u : Text) : owned { s with
      counter := ⟨update s.counter.queueOwnerMap name (some user),
        update s.counter.queuePerUserMap user (some ((s.owned user + 1) % 2 ^ 16))⟩
      queues := (name, user) :: s.queues } u = s.owned u + if user = u then 1 else 0 := owned_cons s name user u
  have hnot : name ∉ s.queues.map Prod.fst := by
    intro hmem
    obtain ⟨⟨n, o⟩, he, rfl⟩ := mem_map.1 hmem
    rw [Assoc.mem_iff_lookup h.nodup] at he
    simp [find, he] at hf
  refine ⟨nodup_cons.2 ⟨hnot, h.nodup⟩, fun u => ?_, fun u => ?_, fun n => ?_⟩
  · rw [howned]
    by_cases hu : u = user
    · subst hu
      simp only [update_self, Nat.mod_eq_of_lt hsmall, if_true, Nat.succ_ne_zero, if_false]
    · simp [hu, Ne.symm hu, h.counts]
  · rw [howned]
    have := h.small u
    split
    · next hu => rw [← hu]; exact hsmall
    · omega
  by_cases hn : n = name
  · subst hn
    simp
  · simp only [update_of_ne hn, Assoc.lookup_cons_ne hn]
    exact h.owners n

/-! ## Destroying -/

theorem releaseLH_eq {theMap : Text → Option Nat} {user : Text} {n : Nat} (h : theMap user = some n) (hpos : 0 < n)
    (hsmall : n < 2 ^ 16) : ResourceCounter.releaseLH theMap user =
      update theMap user (if n - 1 = 0 then none else some (n - 1)) := by
  unfold ResourceCounter.releaseLH
  rw [h]
  simp only [Nat.mod_eq_of_lt hsmall]
  by_cases h1 : n = 1
  · rw [if_pos h1, if_pos (by omega)]
  · have hless : (n + 2 ^ 32 - 1) % 2 ^ 32 = n - 1 := by omega
    rw [if_neg h1, if_neg (by omega), hless]

theorem Sound.releaseLH (h : Sound s) {user : Text} (hu : 0 < s.owned user) :
    ResourceCounter.releaseLH s.counter.queuePerUserMap user = update s.counter.queuePerUserMap user
        (if s.owned user - 1 = 0 then none else some (s.owned user - 1)) :=
  releaseLH_eq (by rw [h.counts, if_neg (by omega)]) hu (h.small user)

/-- A queue that is destroyed is taken from its owner's count. -/
theorem Sound.destroyed (h : Sound s) (name : Text) : Sound ((s.destroy name).recordDestroyQueue name) := by
  have hnodup : ((s.queues.filter (·.1 ≠ name)).map Prod.fst).Nodup :=
    h.nodup.sublist (filter_sublist.map _)
  unfold destroy recordDestroyQueue ResourceCounter.recordDestroyQueue
  rw [h.owners]
  cases hl : s.queues.lookup name with
  | none =>
    have hsame : s.queues.filter (·.1 ≠ name) = s.queues := by
      refine filter_eq_self.2 fun e he => ?_
      have hne := lookup_eq_none_iff.1 hl e he
      exact decide_eq_true fun heq => absurd hne (by simp [heq])
    simp only [hsame]
    exact h
  | some user =>
    -- the entry of the name is the one that goes
    have hcount (u : Text) : s.owned u = (s.queues.filter (·.1 ≠ name)).countP (·.2 = u) +
        if user = u then 1 else 0 := by
      unfold owned
      rw [countP_eq_countP_filter_add _ _ (fun e => decide (e.1 = name)), Assoc.filter_key h.nodup, hl]
      simp [Nat.add_comm]
    have hpos : 0 < s.owned user := by simp [hcount user]
    refine ⟨hnodup, fun u => ?_, fun u => ?_, fun n => ?_⟩
    · simp only [h.releaseLH hpos]
      by_cases hu : u = user
      · subst hu
        rw [update_self, hcount u, if_pos rfl]
        rfl
      · rw [update_of_ne hu, h.counts, hcount u, if_neg (Ne.symm hu)]
        rfl
    · have := h.small u
      rw [hcount] at this
      exact lt_of_le_of_lt (Nat.le_add_right _ _) this
    rw [Assoc.lookup_filter_ne]
    by_cases hn : n = name
    · subst hn
      simp
    · simp only [update_of_ne hn, if_neg hn]
      exact h.owners n

/-! ## Steps -/

theorem declare_counted {c : ResourceCounter} (hf : s.find q.name = false) :
    (({ s with counter := c } : Broker).declare q).2 =
      if (q.alternateExchange = [] ∨ q.alternateExchange ∈ s.exchanges) ∧ q.declared = true then
        { s with counter := c, queues := (q.name, q.userId) :: s.queues }
      else { s with counter := c } := by
  have hf' : ({ s with counter := c } : Broker).find q.name = false := hf
  unfold declare
  rw [hf']
  by_cases hx : q.alternateExchange = [] ∨ q.alternateExchange ∈ s.exchanges
  · have hx' : (!q.alternateExchange.isEmpty && !s.exchanges.contains q.alternateExchange) = false := by
      rcases hx with hx | hx <;> simp [hx]
    rw [hx']
    cases q.declared <;> simp [hx]
  have hx' : (!q.alternateExchange.isEmpty && !s.exchanges.contains q.alternateExchange) = true := by
    simpa [not_or] using hx
  have hno : ¬((q.alternateExchange = [] ∨ q.alternateExchange ∈ s.exchanges) ∧ q.declared = true) :=
    fun h => hx h.1
  rw [hx', if_neg hno, if_pos rfl]

theorem Sound.createQueue_same [LexicalCast] (h : Sound s)
    (hq : s.find q.name = true ∨ s.authorise q.userId .create .queue q.name q.params = false ∨
      s.full q.userId = true) : (s.createQueue q).2 = s := by
  rw [h.createQueue]
  cases ha : s.authorise q.userId .create .queue q.name q.params with
  | false => rfl
  | true =>
    cases hf : s.find q.name with
    | true => exact declare_of_find hf
    | false =>
      have hfull : s.full q.userId = true := by simpa [ha, hf] using hq
      rw [hfull]
      rfl

theorem Sound.createQueue_counted [LexicalCast] (h : Sound s) (hf : s.find q.name = false)
    (ha : s.authorise q.userId .create .queue q.name q.params = true) (hq : s.full q.userId = false) :
    (s.createQueue q).2 =
      if (q.alternateExchange = [] ∨ q.alternateExchange ∈ s.exchanges) ∧ q.declared = true then
        { s with
          counter := ⟨update s.counter.queueOwnerMap q.name (some q.userId),
            update s.counter.queuePerUserMap q.userId (some ((s.owned q.userId + 1) % 2 ^ 16))⟩
          queues := (q.name, q.userId) :: s.queues }
      else { s with
        counter := ⟨update s.counter.queueOwnerMap q.name (some q.userId),
          update s.counter.queuePerUserMap q.userId (some ((s.owned q.userId + 1) % 2 ^ 16))⟩ } := by
  rw [h.createQueue, ha, hf, hq, ← declare_counted hf]
  rfl

/-- A creation that is kept counts its queue, or changes nothing. -/
theorem Sound.create [LexicalCast] (h : Sound s) (hk : s.Kept (.create q)) : Sound (s.createQueue q).2 := by
  by_cases hq : s.find q.name = true ∨ s.authorise q.userId .create .queue q.name q.params = false ∨
      s.full q.userId = true
  · rw [h.createQueue_same hq]
    exact h
  obtain ⟨hx, hd, hsmall⟩ : (q.alternateExchange = [] ∨ q.alternateExchange ∈ s.exchanges) ∧
      q.declared = true ∧ s.owned q.userId + 1 < 2 ^ 16 := by
    simpa [Kept, (by simpa [or_assoc] using hq)] using hk
  simp only [not_or, Bool.not_eq_true, Bool.not_eq_false] at hq
  rw [h.createQueue_counted hq.1 hq.2.1 hq.2.2, if_pos ⟨hx, hd⟩]
  exact h.created hq.1 hsmall

theorem Sound.step [LexicalCast] (h : Sound s) {op : Op} (hk : s.Kept op) (hs : s.step op = some t) : Sound t := by
  cases op with
  | create q =>
    obtain rfl : (s.createQueue q).2 = t := Option.some.inj hs
    exact h.create hk
  | delete name userId params checked =>
    obtain rfl : (s.deleteQueue name userId params checked).2 = t := Option.some.inj hs
    unfold deleteQueue
    split
    · exact h
    split
    · exact h
    split
    · exact h
    · exact h.destroyed name
  | autoDelete name =>
    obtain rfl : s.tryAutoDelete name = t := Option.some.inj hs
    exact h.destroyed name
  | selfDestruct name =>
    obtain rfl : s.selfDestruct name = t := Option.some.inj hs
    exact h.destroyed name
  | addExchange name =>
    cases hs
    exact ⟨h.nodup, h.counts, h.small, h.owners⟩
  | removeExchange name =>
    cases hs
    exact ⟨h.nodup, h.counts, h.small, h.owners⟩
  | reload acl =>
    cases hs
    exact ⟨h.nodup, h.counts, h.small, h.owners⟩

/-- After a creation that is let through but not kept, the count of the user is wrong. -/
theorem Sound.count_ne [LexicalCast] (h : Sound s) {op : Op} (hk : ¬s.Kept op) (hs : s.step op = some t) :
    ∃ user, t.count user ≠ t.owned user := by
  cases op with
  | create q =>
    obtain rfl : (s.createQueue q).2 = t := Option.some.inj hs
    simp only [Kept, not_or, Bool.not_eq_true, Bool.not_eq_false] at hk
    obtain ⟨hf, ha, hq, hk⟩ := hk
    refine ⟨q.userId, ?_⟩
    rw [h.createQueue_counted hf ha hq]
    split
    swap
    · simp only [count, update_self, Option.getD_some]
      change _ ≠ s.owned q.userId
      omega
    next hx =>
    have hlarge : ¬s.owned q.userId + 1 < 2 ^ 16 := fun hlt => hk ⟨hx.1, hx.2, hlt⟩
    have howned (c : ResourceCounter) :
        owned { s with counter := c, queues := (q.name, q.userId) :: s.queues } q.userId =
          s.owned q.userId + 1 := by simp [owned]
    rw [howned]
    simp only [count, update_self, Option.getD_some]
    omega
  | _ => exact absurd trivial hk

/-! ## Recovery -/

theorem Sound.perm (h : Sound s) (hc : t.counter = s.counter) (hp : s.queues.Perm t.queues) : Sound t := by
  have hnodup : (t.queues.map Prod.fst).Nodup := (hp.map _).nodup_iff.1 h.nodup
  have howned (user : Text) : t.owned user = s.owned user := (hp.countP_eq _).symm
  refine ⟨hnodup, fun user => ?_, fun user => ?_, fun name => ?_⟩
  · rw [hc, howned]
    exact h.counts user
  · rw [howned]
    exact h.small user
  rw [hc, h.owners]
  refine Option.ext fun user => ?_
  rw [← Assoc.mem_iff_lookup h.nodup, ← Assoc.mem_iff_lookup hnodup]
  exact hp.mem_iff

/-- The queues of the store are counted one by one. -/
theorem Sound.recovering {acl : AclData} {exchanges : List Text} (all : List (Text × Text)) :
    ∀ {queues counted : List (Text × Text)} {c : ResourceCounter}, Sound ⟨acl, c, counted, exchanges⟩ →
      Recoverable acl (queues ++ counted) →
      Sound { (queues.foldl (fun s e => (s.approveCreateQueue e.2 e.1).2) ⟨acl, c, all, exchanges⟩ : Broker) with
        queues := queues.reverse ++ counted } := by
  intro queues
  induction queues with
  | nil =>
    intro counted c h _
    exact h
  | cons e queues ih =>
    obtain ⟨name, user⟩ := e
    intro counted c h hr
    have hperm : (queues ++ (name, user) :: counted).Perm ((name, user) :: queues ++ counted) :=
      perm_middle
    have hcount : counted.countP (·.2 = user) + 1 ≤ ((name, user) :: queues ++ counted).countP (·.2 = user) := by
      simp
    have hfull : full ⟨acl, c, counted, exchanges⟩ user = false := by
      simp only [full, Bool.and_eq_false_imp, decide_eq_false_iff_not]
      intro henf
      have := (hr.2 user).2 henf
      have howned : owned ⟨acl, c, counted, exchanges⟩ user = counted.countP (·.2 = user) := rfl
      omega
    have hfind : find ⟨acl, c, counted, exchanges⟩ name = false := by
      have hnot : name ∉ counted.map Prod.fst := by
        have := hr.1
        simp only [cons_append, map_cons, map_append, nodup_cons, mem_append] at this
        exact fun hm => this.1 (.inr hm)
      simp [find, Assoc.lookup_eq_none_of_notMem hnot]
    have hsmall : owned ⟨acl, c, counted, exchanges⟩ user + 1 < 2 ^ 16 := lt_of_le_of_lt hcount (hr.2 user).1
    -- the counter does not look at the queues
    have hcou : (Broker.approveCreateQueue ⟨acl, c, all, exchanges⟩ user name).2 =
        ⟨acl, ⟨update c.queueOwnerMap name (some user), update c.queuePerUserMap user
          (some ((owned ⟨acl, c, counted, exchanges⟩ user + 1) % 2 ^ 16))⟩, all, exchanges⟩ := by
      have happ := h.approveCreateQueue user name
      rw [hfull] at happ
      exact congrArg (fun r => (⟨acl, r.2.counter, all, exchanges⟩ : Broker)) happ
    have hnext := ih (h.created hfind hsmall)
      ⟨(hperm.map _).nodup_iff.2 hr.1, fun u => by rw [hperm.countP_eq]; exact hr.2 u⟩
    rw [foldl_cons, hcou, reverse_cons, append_assoc]
    exact hnext

theorem sound_recover {acl : AclData} {queues : List (Text × Text)} (exchanges : List Text)
    (hr : Recoverable acl queues) : Sound (recover acl exchanges queues) := by
  have hempty : Sound ⟨acl, {}, [], exchanges⟩ :=
    ⟨nodup_nil, fun _ => rfl, fun _ => by simp [owned], fun _ => rfl⟩
  have hall := Sound.recovering queues hempty (by rwa [append_nil])
  rw [append_nil] at hall
  have hque : ∀ (l : List (Text × Text)) (s : Broker),
      (l.foldl (fun s e => (s.approveCreateQueue e.2 e.1).2) s).queues = s.queues := by
    intro l
    induction l with
    | nil => exact fun _ => rfl
    | cons e l ih => exact fun s => ih _
  refine hall.perm rfl ?_
  rw [recover, hque]
  exact reverse_perm queues

/-! ## Runs -/

theorem Sound.overQuota_iff [LexicalCast] (h : Sound s) (q : CreateQueue) : (s.createQueue q).1 = .overQuota ↔
      s.authorise q.userId .create .queue q.name q.params = true ∧ s.find q.name = false ∧
        s.acl.queueQuotaRulesExist = true ∧ (s.acl.getQueueQuotaForUser q.userId).2 ≤ s.owned q.userId := by
  have hdec (s : Broker) : (s.declare q).1 ≠ .overQuota := by
    unfold declare
    split_ifs <;> simp
  have hfull : s.full q.userId = true ↔
      s.acl.queueQuotaRulesExist = true ∧ (s.acl.getQueueQuotaForUser q.userId).2 ≤ s.owned q.userId := by
    simp [full]
  rw [h.createQueue, ← hfull]
  cases s.authorise q.userId .create .queue q.name q.params with
  | false => simp
  | true =>
    cases s.find q.name with
    | true => simp [hdec]
    | false => cases s.full q.userId <;> simp [hdec]

/-- A run that starts with the queues of the store: counts are right as long as every creation
that is let through creates its queue, and wrong from the first that does not. -/
theorem quotas_count_queues [LexicalCast] {acl : AclData} {exchanges : List Text} {queues : List (Text × Text)}
    (hr : Recoverable acl queues) {ops : List Op} (h : Run step Kept (recover acl exchanges queues) ops s) :
    (∀ user, s.count user = s.owned user) ∧ (∀ q, (s.createQueue q).1 = .overQuota ↔
        s.authorise q.userId .create .queue q.name q.params = true ∧ s.find q.name = false ∧
          s.acl.queueQuotaRulesExist = true ∧ (s.acl.getQueueQuotaForUser q.userId).2 ≤ s.owned q.userId) ∧
      ∀ op t, s.step op = some t → ((∀ user, t.count user = t.owned user) ↔ s.Kept op) := by
  have hs : Sound s := h.keep (fun hI hk hs => hI.step hk hs) (sound_recover exchanges hr)
  refine ⟨hs.count_eq, hs.overQuota_iff, fun op t ht => ⟨fun hcount => ?_, fun hk => (hs.step hk ht).count_eq⟩⟩
  by_contra hk
  obtain ⟨user, hne⟩ := hs.count_ne hk ht
  exact hne (hcount user)

/-- One queue for each user, who may do everything. -/
def oneQueue : AclData :=
  { decisionMode := .allow, queueQuotaRulesExist := true, queueQuotaRuleSettings := [("all".toList, 1)] }

instance [LexicalCast] (s : Broker) : (op : Op) → Decidable (s.Kept op)
  | .create q => inferInstanceAs (Decidable (s.find q.name = true ∨ _ ∨ _ ∨ _))
  | .delete .. | .autoDelete _ | .selfDestruct _ | .addExchange _ | .removeExchange _ | .reload _ =>
    inferInstanceAs (Decidable True)

/-- A queue is created, a second is refused, and the quota is given back. -/
def oneAfterTheOther : List Op :=
  [.create { name := "q".toList, userId := "alice".toList, alternateExchange := "amq.fanout".toList },
    .create { name := "r".toList, userId := "alice".toList },
    .delete "q".toList "alice".toList [] true,
    .create { name := "r".toList, userId := "alice".toList }]

theorem quotas_count_queues_oneQueue :
    ∃ s, Run step Kept (recover oneQueue ["amq.fanout".toList] []) oneAfterTheOther s ∧
      s.queues = [("r".toList, "alice".toList)] ∧ ∀ user, s.count user = s.owned user := by
  have hr : Recoverable oneQueue [] := ⟨nodup_nil, fun _ => by simp⟩
  exact exists_run (by decide +kernel) fun s hs hq => ⟨hs, hq, (quotas_count_queues hr hs).1⟩

/-- A creation that fails for want of its alternate exchange uses up the quota: the user has
no queue and is refused the first. -/
theorem failed_creation_is_counted :
    let s := recover oneQueue [] []
    let q : CreateQueue :=
      { name := "q".toList, userId := "alice".toList, alternateExchange := "none".toList }
    let r : CreateQueue := { name := "r".toList, userId := "alice".toList }
    (s.createQueue q).1 = .noAlternate ∧ (s.createQueue q).2.count "alice".toList = 1 ∧
      (s.createQueue q).2.owned "alice".toList = 0 ∧ ((s.createQueue q).2.createQueue r).1 = .overQuota := by
  decide +kernel

end QB.Impl.Acl.Broker
