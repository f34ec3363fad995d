import QpidBroker.Framework.Assoc
import QpidBroker.Spec.Acl

/-!
# Loading the rules of an access control file

`Named` says how the names of a reader's groups and rules lie in its set of names, and every
line keeps it (`Named.readLines`). `Loaded` says which rules the decision data lists for an
action, an object and a user once some of the rules have been walked, and a turn of
`loadDecisionData` keeps it (`Loaded.turn`); the rules being walked backwards and the lists
too, `ruleSet_eq` has the rules for a request in the order of the file.
-/

namespace QB.Impl.Acl

open Spec.Acl List
open Option hiding mem_map any_eq_true any_eq_false

/-! ## Names -/

theorem mem_insert {n name : Text} {names : NameSet} :
    n ∈ NameSet.insert name names ↔ n = name ∨ n ∈ names := by
  unfold NameSet.insert
  split
  swap
  · exact mem_orderedInsert _
  next h =>
  rw [contains_iff_mem] at h
  constructor
  · exact .inr
  · rintro (rfl | hn)
    · exact h
    · exact hn

theorem nodup_insert {name : Text} {names : NameSet} (h : names.Nodup) : (NameSet.insert name names).Nodup := by
  unfold NameSet.insert
  split
  · exact h
  · next hn =>
    rw [(perm_orderedInsert _ name names).nodup_iff, nodup_cons]
    exact ⟨by simpa using hn, h⟩

theorem mem_insertAll {n : Text} (members names : NameSet) :
    n ∈ members.foldl (fun s n => NameSet.insert n s) names ↔ n ∈ members ∨ n ∈ names := by
  induction members generalizing names with
  | nil => simp
  | cons m members ih =>
    rw [foldl_cons, ih, mem_insert, mem_cons]
    tauto

theorem nodup_insertAll (members : NameSet) {names : NameSet} (h : names.Nodup) :
    (members.foldl (fun s n => NameSet.insert n s) names).Nodup := by
  induction members generalizing names with
  | nil => exact h
  | cons m members ih => exact ih (nodup_insert h)

/-- A set of names of individuals, all of which the reader knows. -/
structure Members (names members : NameSet) : Prop where
  nodup : members.Nodup
  known : members ⊆ names
  noWildcard : wildcard ∉ members

/-- The names of the reader, of its groups and of its rules. -/
structure Named (names : NameSet) (groups : GroupMap) (rules : List AclRule) : Prop where
  nodup : names.Nodup
  wildcard_mem : wildcard ∈ names
  groups : ∀ g ∈ groups, Members names g.2
  rules : ∀ r ∈ rules, r.names = [wildcard] ∨ Members names r.names

abbrev AclReader.Named (r : AclReader) : Prop := Acl.Named r.names r.groups r.rules

variable {names names' members : NameSet} {groups : GroupMap} {rules : List AclRule} {r : AclReader}

theorem Members.mono (h : Members names members) (hn : names ⊆ names') : Members names' members :=
  ⟨h.nodup, fun _ hm => hn (h.known hm), h.noWildcard⟩

/-- More names do not make a rule refer to others. -/
theorem Named.mono (h : Named names groups rules) (hd : names'.Nodup) (hn : names ⊆ names') :
    Named names' groups rules where
  nodup := hd
  wildcard_mem := hn h.wildcard_mem
  groups g hg := (h.groups g hg).mono hn
  rules r hr := (h.rules r hr).imp_right (·.mono hn)

theorem Named.addName (h : r.Named) (name : Text) : (r.addName name).Named :=
  h.mono (nodup_insert h.nodup) fun _ hn => mem_insert.2 (.inr hn)

theorem Named.lookup (h : Named names groups rules) {g : Text} (hg : groups.lookup g = some members) :
    Members names members := by
  obtain ⟨l1, l2, rfl, -⟩ := lookup_eq_some_iff.1 hg
  exact h.groups (g, members) (by simp)

theorem Named.setGroup (h : r.Named) {f : NameSet → NameSet}
    (hf : ∀ s, Members r.names s → Members r.names (f s)) (group : Text) : (r.setGroup group f).Named where
  nodup := h.nodup
  wildcard_mem := h.wildcard_mem
  groups g hg := by
    obtain ⟨e, he, rfl⟩ := mem_map.1 hg
    split
    · exact hf _ (h.groups e he)
    · exact h.groups e he
  rules := h.rules

namespace AclReader

/-- A member of a group is a name, or what its group has. -/
theorem Named.addGroupName (h : r.Named) {name : Text} (hn : r.groups.lookup name = none → name ≠ wildcard)
    (group : Text) : (r.addGroupName name group).Named := by
  unfold AclReader.addGroupName
  split
  · next members hm =>
    refine Acl.Named.setGroup h (fun s hs => ?_) group
    have hmem := Acl.Named.lookup h hm
    refine ⟨nodup_insertAll _ hs.nodup, fun n hn => ?_, fun hw => ?_⟩
    · exact ((mem_insertAll _ _).1 hn).elim (hmem.known ·) (hs.known ·)
    · exact ((mem_insertAll _ _).1 hw).elim hmem.noWildcard hs.noWildcard
  next hnone =>
  -- the name is known to the reader before it is to the group
  have h' := Acl.Named.addName h name
  refine Acl.Named.setGroup h' (fun s hs => ⟨nodup_insert hs.nodup, fun n hn => ?_, fun hw => ?_⟩) group
  · exact (mem_insert.1 hn).elim (fun e => e ▸ mem_insert.2 (.inl rfl)) (hs.known ·)
  · exact (mem_insert.1 hw).elim (fun e => hn hnone e.symm) hs.noWildcard

variable {r' : AclReader} {toks : List Text} {rule : AclRule}

theorem isValidUserName_eq {name : Text} (h : r.isValidUserName name = (r', true)) : r' = r ∧ '@' ∈ name := by
  unfold isValidUserName at h
  split at h
  · cases h
  next hn =>
  split at h
  · cases h
    simp only [Bool.or_eq_true, Bool.not_eq_true', contains_eq_mem, decide_eq_false_iff_not, not_or, not_not] at hn
    exact ⟨rfl, hn.1⟩
  · cases h

theorem isValidUserName_named (h : r.Named) (name : Text) : (r.isValidUserName name).1.Named := by
  unfold isValidUserName
  split
  · exact h
  · split <;> exact h

/-- A group line adds names and the members of groups before it. -/
theorem Named.addTokens {group : Text} {ok : Bool} (h : r.Named)
    (he : addTokens group r toks = some (r', ok)) : r'.Named := by
  induction toks generalizing r with
  | nil =>
    cases he
    exact h
  | cons tok toks ih =>
    rw [AclReader.addTokens] at he
    split at he
    · split at he
      · exact ih h he
      split at he
      · cases he
        exact h
      next hsome =>
      split at he
      · cases he
      · refine ih (Named.addGroupName h (fun hnone => ?_) group) he
        exact absurd (hnone ▸ rfl) hsome
    split at he
    · next r1 hv =>
      cases he
      have := isValidUserName_named h tok
      rwa [hv] at this
    next r1 hv =>
    obtain ⟨rfl, hat⟩ := isValidUserName_eq hv
    split at he
    · cases he
    · refine ih (Named.addGroupName h (fun _ hw => ?_) group) he
      rw [hw] at hat
      exact absurd hat (by decide)

theorem Named.addGroup (h : r.Named) (name : Text) : (r.addGroup name).1.Named := by
  unfold AclReader.addGroup
  split
  · exact h
  refine ⟨h.nodup, h.wildcard_mem, fun g hg => ?_, h.rules⟩
  rcases mem_cons.1 hg with rfl | hg
  · exact ⟨nodup_nil, nil_subset _, not_mem_nil⟩
  · exact h.groups g hg

theorem Named.processGroupLine {cont ok : Bool} (h : r.Named)
    (he : r.processGroupLine toks cont = some (r', ok)) : r'.Named := by
  unfold AclReader.processGroupLine at he
  generalize (if cont then 2 else 3) = minimumSize at he
  split at he
  · exact Named.addTokens h he
  split at he
  · cases he
    exact h
  dsimp only at he
  have hg := Named.addGroup h (toks.getD 1 [])
  split at he
  · cases he
    exact h
  split at he
  · next heq =>
    cases he
    rwa [heq] at hg
  · next heq =>
    rw [heq] at hg
    exact Named.addTokens hg he

/-! ## Rules of the file -/

theorem processProperties_names {rule' : AclRule}
    (h : processProperties rule toks = .ok rule') : rule'.names = rule.names := by
  induction toks generalizing rule with
  | nil =>
    cases h
    rfl
  | cons tok toks ih =>
    rw [processProperties] at h
    split at h
    · cases h
    split at h
    · cases h
    · rw [ih h]
      rfl

theorem processObject_names {rule' : AclRule}
    (h : processObject rule toks = .ok rule') : rule'.names = rule.names := by
  cases toks with
  | nil =>
    cases h
    rfl
  | cons obj toks =>
    rw [processObject] at h
    split at h
    · rw [processProperties_names h]
    · split at h
      · cases h
      · rw [processProperties_names h]

/-- The names of a rule are those of its group, or its one name. -/
theorem aclRule_names (h : aclRule groups toks = .ok rule) :
    rule.names = AclRule.processName (toks.getD 2 []) groups := by
  unfold aclRule at h
  split at h
  swap
  · cases h
  split at h
  · cases h
  split at h
  · split at h
    · cases h
    · exact processObject_names h
  · split at h
    · cases h
    · exact processObject_names h

/-- A rule is read with names that are known. -/
theorem Named.processAclLine (h : r.Named) (toks : List Text) : (r.processAclLine toks).1.Named := by
  unfold AclReader.processAclLine
  split
  · exact h
  next rule hrule =>
  have hnames := aclRule_names hrule
  dsimp only
  generalize toks.getD 2 [] = user at hnames
  -- the reader after the name of the rule: it knows the names of the rule
  suffices ∀ r' : AclReader, r'.Named → rule.names = [wildcard] ∨ Members r'.names rule.names →
      Acl.Named r'.names r'.groups (r'.rules ++ [rule]) by
    split
    · next hadd =>
      simp only [decide_not, Bool.and_eq_true, Bool.not_eq_true', decide_eq_false_iff_not, isNone_iff_eq_none] at hadd
      refine this _ (Acl.Named.addName h user) ?_
      rw [hnames, AclRule.processName, if_neg hadd.1, hadd.2, getD_none]
      by_cases hw : user = wildcard
      · exact .inl (by rw [hw])
      · exact .inr ⟨nodup_singleton _, by simp [mem_insert, AclReader.addName], by simpa using Ne.symm hw⟩
    next hadd =>
    refine this _ h ?_
    rw [hnames, AclRule.processName]
    split
    · exact .inl rfl
    next hall =>
    cases hg : r.groups.lookup user with
    | none => simp [hall, hg] at hadd
    | some members => exact .inr (Acl.Named.lookup h hg)
  intro r' h' hr
  refine ⟨h'.nodup, h'.wildcard_mem, h'.groups, fun x hx => ?_⟩
  rcases mem_append.1 hx with hx | hx
  · exact h'.rules x hx
  · rw [mem_singleton.1 hx]
    exact hr

theorem Named.processQuotaLine [LexicalCast] (h : r.Named) (toks : List Text) : (r.processQuotaLine toks).1.Named := by
  unfold AclReader.processQuotaLine
  split
  · exact h
  split
  · split <;> exact h
  · split
    · split <;> exact h
    · exact h

theorem Named.processLine [LexicalCast] {line : Text} {ok : Bool} (h : r.Named)
    (he : r.processLine line = some (r', ok)) : r'.Named := by
  unfold AclReader.processLine at he
  dsimp only at he
  split at he
  · cases he
    exact h
  split at he
  · cases he
    exact h
  split at he
  · obtain ⟨⟨r1, ok1⟩, hgroup, heq⟩ := map_eq_some_iff.1 he
    have h1 := Named.processGroupLine h hgroup
    cases heq
    exact h1
  split at he
  · cases he
    exact Named.processAclLine h _
  split at he
  · cases he
    exact Named.processQuotaLine h _
  · cases he
    exact h

/-- Every line of the file keeps the names in order. -/
theorem Named.readLines [LexicalCast] {lines : List Text} {err eof err' : Bool} (h : r.Named)
    (he : r.readLines err lines = some (r', eof, err')) : r'.Named := by
  induction lines generalizing r err with
  | nil =>
    cases he
    exact h
  | cons line lines ih =>
    rw [AclReader.readLines] at he
    split at he
    · cases he
    next r1 ok hturn =>
    have h' : { r with lineNumber := r.lineNumber + 1 }.Named := h
    have h1 : r1.Named := by
      split at hturn
      · cases hturn
        exact h
      · exact Named.processLine h' hturn
    split at he
    · cases he
      exact h1
    · exact ih h1 he

theorem named_start (fileName : Text) (conn queues : Nat) : (start fileName conn queues).Named where
  nodup := nodup_singleton _
  wildcard_mem := mem_singleton_self _
  groups := fun _ hg => absurd hg not_mem_nil
  rules := fun _ hr => absurd hr not_mem_nil

/-! ## Lists of rules -/

theorem lookup_pushBack (rule : Rule) (m : ActionObject) (user u : Text) : (pushBack rule m user).lookup u =
      if u = user then some ((m.lookup u).getD [] ++ [rule]) else m.lookup u := by
  unfold pushBack
  split
  · next h =>
    rw [Assoc.lookup_map user u (· ++ [rule])]
    by_cases hu : u = user
    · obtain ⟨rs, hrs⟩ := isSome_iff_exists.1 h
      simp [hu, hrs]
    · simp [hu]
  next h =>
  rw [lookup_cons]
  by_cases hu : u = user
  · rw [not_isSome_iff_eq_none] at h
    simp [hu, h]
  · rw [beq_false_of_ne hu, if_neg hu]

/-- A rule is pushed back once for each of its users. -/
theorem lookup_pushBacks (rule : Rule) {us : List Text} (hus : us.Nodup) (m : ActionObject) (u : Text) :
    (us.foldl (pushBack rule) m).lookup u =
      if u ∈ us then some ((m.lookup u).getD [] ++ [rule]) else m.lookup u := by
  induction us generalizing m with
  | nil => simp
  | cons user us ih =>
    obtain ⟨hnot, hus⟩ := nodup_cons.1 hus
    rw [foldl_cons, ih hus, lookup_pushBack]
    by_cases hu : u = user
    · subst hu
      simp [hnot]
    · simp [hu]

/-- Each object type of the rule gets it for its users. -/
theorem loadObjects_apply (loaded : Rule) (us : List Text) (table : ObjectType → Option ActionObject)
    {os : List ObjectType} (hos : os.Nodup) (o : ObjectType) :
    loadObjects loaded us table os o =
      if o ∈ os then some (us.foldl (pushBack loaded) ((table o).getD [])) else table o := by
  unfold loadObjects
  induction os generalizing table with
  | nil => simp
  | cons o' os ih =>
    obtain ⟨hnot, hos⟩ := nodup_cons.1 hos
    rw [foldl_cons, ih _ hos]
    by_cases ho : o = o'
    · subst ho
      simp [hnot]
    · simp [ho]

end AclReader

/-- The rules listed for a user, if there is a list. -/
def AclData.listed (d : AclData) (a : Action) (o : ObjectType) (u : Text) : Option (List Rule) :=
  ((d.actionList a).bind (· o)).bind (·.lookup u)

theorem AclData.ruleSet_listed (d : AclData) (id : Text) (a : Action) (o : ObjectType) :
    d.ruleSet id a o = ((d.listed a o id).or (d.listed a o wildcard)).getD [] := by
  unfold ruleSet listed
  cases (d.actionList a).bind (· o) with
  | none => rfl
  | some rules =>
    simp only [bind_some]
    cases rules.lookup id <;> rfl

namespace AclReader

/-- The places for publish are filled once and for all. -/
theorem loadPublish_loadPublish (rule : AclRule) (loaded : Rule) :
    loadPublish rule (loadPublish rule loaded) = loadPublish rule loaded := by
  unfold loadPublish
  cases rule.props.find .name <;> rfl

@[simp] theorem loadAction_fst (rule : AclRule) (us : List Text) (s : Rule × AclData) (b : Action) :
    (loadAction rule us s b).1 = if b = .publish then loadPublish rule s.1 else s.1 := rfl

@[simp] theorem loadAction_actionList (rule : AclRule) (us : List Text) (s : Rule × AclData) (b : Action) :
    (loadAction rule us s b).2.actionList = Function.update s.2.actionList b
      (some (loadObjects (if b = .publish then loadPublish rule s.1 else s.1) us
        ((s.2.actionList b).getD fun _ => none) (objects rule))) := by
  unfold loadAction
  split <;> rfl

theorem actionList_foldl (rule : AclRule) (us : List Text) {as : List Action} (has : as.Nodup)
    (s : Rule × AclData) (a : Action) :
    (as.foldl (loadAction rule us) s).2.actionList a =
      if a ∈ as then
        some (loadObjects
          (if Action.publish ∈ as.takeWhile (· ≠ a) ∨ a = .publish then loadPublish rule s.1 else s.1) us
          ((s.2.actionList a).getD fun _ => none) (objects rule))
      else s.2.actionList a := by
  induction as generalizing s with
  | nil => simp
  | cons b as ih =>
    obtain ⟨hnot, has⟩ := nodup_cons.1 has
    rw [foldl_cons, ih has]
    by_cases ha : a = b
    · subst ha
      simp [hnot]
    rw [takeWhile_cons_of_pos (by simpa using Ne.symm ha)]
    by_cases hb : b = .publish
    · subst hb
      simp [ha, loadPublish_loadPublish]
    · simp [ha, hb, Ne.symm hb]

theorem nodup_actions (rule : AclRule) : (actions rule).Nodup := by
  unfold actions
  split
  · decide
  · exact nodup_singleton _

theorem nodup_objects (rule : AclRule) : (objects rule).Nodup := by
  unfold objects
  split
  · exact nodup_singleton _
  · decide

theorem mem_actions_objects (rule : AclRule) (a : Action) (o : ObjectType) :
    a ∈ actions rule ∧ o ∈ objects rule ↔ covers rule a o = true := by
  have ha : a ∈ actions rule ↔ rule.actionAll = true ∨ rule.action = a := by
    unfold actions
    cases rule.actionAll
    · simp [eq_comm]
    · cases a <;> simp [Action.all]
  have ho : o ∈ objects rule ↔ rule.objStatus ≠ .value ∨ rule.object = o := by
    unfold objects
    by_cases h : rule.objStatus = .value
    · simp [h, eq_comm]
    · cases o <;> simp [h, ObjectType.all]
  rw [ha, ho]
  simp [covers]

variable {us : List Text} {d : AclData}

/-- After a rule is loaded it is listed where it applies. -/
theorem listed_foldl (rule : AclRule) (hus : us.Nodup) (d : AclData) (a : Action) (o : ObjectType) (u : Text) :
    ((actions rule).foldl (loadAction rule us) (loadRule rule, d)).2.listed a o u =
      if covers rule a o = true ∧ u ∈ us then some ((d.listed a o u).getD [] ++ [loadedAt rule a])
      else d.listed a o u := by
  unfold AclData.listed
  simp only [actionList_foldl rule us (nodup_actions rule), ← mem_actions_objects]
  by_cases ha : a ∈ actions rule
  swap
  · simp [ha]
  rw [if_pos ha, bind_some, loadObjects_apply _ _ _ (nodup_objects rule)]
  have htable : (d.actionList a).bind (· o) = ((d.actionList a).getD fun _ => none) o := by
    cases d.actionList a <;> rfl
  rw [htable]
  by_cases ho : o ∈ objects rule
  swap
  · simp [ho]
  rw [if_pos ho, bind_some, lookup_pushBacks _ hus]
  have hlist (t : Option ActionObject) : (t.getD []).lookup u = t.bind (·.lookup u) := by
    cases t <;> rfl
  rw [hlist]
  simp only [ha, ho, true_and]
  rfl

theorem decisionMode_foldl (rule : AclRule) (us : List Text) (as : List Action) (s : Rule × AclData) :
    (as.foldl (loadAction rule us) s).2.decisionMode = s.2.decisionMode := by
  induction as generalizing s with
  | nil => rfl
  | cons a as ih =>
    rw [foldl_cons, ih]
    unfold loadAction
    split <;> rfl

/-! ## Walking the rules -/

/-- The users a rule is loaded for, none if that is not defined. -/
def loadedFor (names : NameSet) (rule : AclRule) : List Text := (users names rule).getD []

theorem Named.nodup_users {rule : AclRule} (h : Acl.Named names groups rules) (hr : rule ∈ rules)
    (hus : users names rule = some us) : us.Nodup := by
  obtain ⟨first, -, rfl⟩ := map_eq_some_iff.1 hus
  split
  · exact h.nodup
  rcases h.rules rule hr with heq | hm
  · rw [heq]
    exact nodup_singleton _
  · exact hm.nodup

/-- A list as an entry of a map, which there is only for a list with rules in it. -/
def entry (l : List Rule) : Option (List Rule) := if l.isEmpty then none else some l

theorem getD_entry (l : List Rule) : (entry l).getD [] = l := by
  cases l <;> rfl

theorem entry_append_singleton (l : List Rule) (x : Rule) : entry (l ++ [x]) = some (l ++ [x]) := by
  cases l <;> rfl

/-- The rules that are listed for an action, an object and a user, of those walked. -/
def listing (names : NameSet) (rules : List AclRule) (a : Action) (o : ObjectType) (u : Text) : List Rule :=
  (rules.filter fun r => covers r a o && (loadedFor names r).contains u).map (loadedAt · a)

/-- The state of the loading when these rules have been walked, the last of the file first. -/
structure Loaded (names : NameSet) (done : List AclRule) (s : Bool × AclData) : Prop where
  found : s.1 = done.any allAll
  mode : s.2.decisionMode = ((done.find? allAll).map (·.res)).getD .deny
  listed (a : Action) (o : ObjectType) (u : Text) :
    s.2.listed a o u = entry (listing names (done.eraseP allAll) a o u)

variable {done : List AclRule} {s s' : Bool × AclData} {rule : AclRule}

theorem loaded_nil (names : NameSet) : Loaded names [] (false, {}) where
  found := rfl
  mode := rfl
  listed _ _ _ := rfl

theorem allAll_iff (rule : AclRule) : (rule.actionAll && rule.names.length = 1 && rule.names.head? = some wildcard) =
    allAll rule := by
  unfold allAll
  rcases rule.names with _ | ⟨n, _ | ⟨n', l⟩⟩ <;> simp

/-- The first rule for all is taken as the decision mode. -/
theorem Loaded.hoist (h : Loaded names done s) (hs : s.1 = false) (hr : allAll rule = true) :
    Loaded names (done ++ [rule]) (true, { s.2 with decisionMode := rule.res }) := by
  have hnone : ∀ r ∈ done, ¬allAll r = true := by
    rw [h.found, any_eq_false] at hs
    exact hs
  refine ⟨by simp [hr], ?_, fun a o u => ?_⟩
  · rw [find?_append, find?_eq_none.2 hnone, find?_cons_of_pos hr]
    rfl
  · rw [eraseP_append_right _ hnone, eraseP_cons_of_pos hr, append_nil]
    rw [← eraseP_of_forall_not hnone]
    exact h.listed a o u

/-- Any other rule is listed behind those before it. -/
theorem Loaded.list (h : Loaded names done s) (hs : s.1 = true ∨ allAll rule = false)
    (hus : users names rule = some us) (hnd : us.Nodup) :
    Loaded names (done ++ [rule]) (s.1, ((actions rule).foldl (loadAction rule us) (loadRule rule, s.2)).2) := by
  -- it is not the one taken for the mode
  have herase : (done ++ [rule]).eraseP allAll = done.eraseP allAll ++ [rule] := by
    by_cases hany : ∃ r ∈ done, allAll r = true
    · obtain ⟨r, hr, ha⟩ := hany
      exact eraseP_append_left ha _ hr
    have hnone : ∀ r ∈ done, ¬allAll r = true := fun r hr ha => hany ⟨r, hr, ha⟩
    have hrule : allAll rule = false := by
      refine hs.resolve_left fun ht => ?_
      rw [h.found, any_eq_true] at ht
      exact hany ht
    rw [eraseP_append_right _ hnone, eraseP_cons_of_neg (by simp [hrule]), eraseP_nil, eraseP_of_forall_not hnone]
  have hfind : (done ++ [rule]).find? allAll = done.find? allAll := by
    rw [find?_append]
    rcases hs with ht | hrule
    · rw [h.found, any_eq_true, ← find?_isSome] at ht
      obtain ⟨r, hr⟩ := isSome_iff_exists.1 ht
      rw [hr, some_or]
    · rw [find?_cons_of_neg (by simp [hrule]), find?_nil, or_none]
  refine ⟨?_, ?_, fun a o u => ?_⟩
  · rw [any_append, ← h.found]
    rcases hs with ht | hrule
    · simp [ht]
    · simp [hrule]
  · rw [hfind, ← h.mode, decisionMode_foldl]
  rw [listed_foldl rule hnd, h.listed, getD_entry, herase]
  unfold listing
  rw [filter_append, map_append]
  by_cases hcov : covers rule a o = true ∧ u ∈ us
  · have : (covers rule a o && (loadedFor names rule).contains u) = true := by
      simp [hcov.1, loadedFor, hus, hcov.2]
    simp only [if_pos hcov, filter_cons, this, filter_nil, if_true, map_cons, map_nil, entry_append_singleton]
  have : (covers rule a o && (loadedFor names rule).contains u) = false := by
    simpa [loadedFor, hus] using hcov
  simp only [if_neg hcov, filter_cons, this, filter_nil, Bool.false_eq_true, if_false, map_nil, append_nil]

/-- One turn of the loop over the rules. -/
theorem Loaded.turn (h : Loaded names done s) (hnd : ∀ us, users names rule = some us → us.Nodup)
    (he : loadTurn names s rule = some s') : Loaded names (done ++ [rule]) s' := by
  unfold loadTurn at he
  rw [Bool.and_assoc, Bool.and_assoc, ← Bool.and_assoc rule.actionAll, allAll_iff] at he
  split at he
  · next hc =>
    cases he
    simp only [Bool.and_eq_true, Bool.not_eq_true'] at hc
    exact h.hoist hc.1 hc.2
  next hc =>
  obtain ⟨us, hus, rfl⟩ := map_eq_some_iff.1 he
  refine h.list ?_ hus (hnd us hus)
  simp only [Bool.and_eq_true, Bool.not_eq_true', not_and] at hc
  cases hs : s.1
  · exact .inr (by simpa using hc hs)
  · exact .inl rfl

theorem Loaded.foldlM (h : Loaded names done s) {rs : List AclRule}
    (hnd : ∀ r ∈ rs, ∀ us, users names r = some us → us.Nodup)
    (he : rs.foldlM (loadTurn names) s = some s') : Loaded names (done ++ rs) s' := by
  induction rs generalizing done s with
  | nil =>
    cases he
    rwa [append_nil]
  | cons r rs ih =>
    obtain ⟨s1, hturn, hrest⟩ := bind_eq_some_iff.1 he
    have h1 := h.turn (hnd r mem_cons_self) hturn
    rw [List.append_cons]
    exact ih h1 (fun r' hr' => hnd r' (mem_cons_of_mem _ hr')) hrest

/-! ## The rules for a request -/

theorem mem_loadedFor {rule : AclRule} (hrule : rule.names = [wildcard] ∨ Members names rule.names)
    (u : Text) : u ∈ loadedFor names rule ↔ if wildcard ∈ rule.names then u ∈ names else u ∈ rule.names := by
  unfold loadedFor users
  rcases hrule with heq | hm
  · simp [heq]
  have hnot := hm.noWildcard
  rw [if_neg hnot]
  cases hn : rule.names with
  | nil => simp
  | cons first rest =>
    rw [hn] at hnot
    have hfirst : first ≠ wildcard := fun e => hnot (e ▸ mem_cons_self)
    simp [hfirst]

/-- What is loaded lists the rules from the last to the first. -/
theorem loaded_rules (h : r.Named) (he : r.loadDecisionData = some d) :
    ∃ f, Loaded r.names r.rules.reverse (f, d) := by
  obtain ⟨⟨f, d'⟩, hfold, rfl⟩ := map_eq_some_iff.1 he
  have := Loaded.foldlM (loaded_nil r.names) (fun rule hr us hus => Named.nodup_users h (mem_reverse.1 hr) hus) hfold
  exact ⟨f, this.found, this.mode, this.listed⟩

/-- The rules of the file that are for a request, as they are loaded. -/
def requested (rules : List AclRule) (a : Action) (o : ObjectType) (u : Text) : List Rule :=
  (rules.filter fun x => appliesTo x u && covers x a o).map (loadedAt · a)

section Listing

variable (hrules : ∀ x ∈ rules, x.names = [wildcard] ∨ Members names x.names) (a : Action) (o : ObjectType)

include hrules

theorem listing_of_mem {u : Text} (hu : u ∈ names) : listing names rules a o u = requested rules a o u := by
  unfold listing requested
  congr 1
  refine filter_congr fun x hx => ?_
  rw [Bool.and_comm, Bool.eq_iff_iff]
  simp only [appliesTo, Bool.and_eq_true, contains_iff_mem, mem_loadedFor (hrules x hx)]
  split
  · next hw => simp [hu, hw]
  · next hw => simp [hw]

theorem listing_of_notMem {u : Text} (hu : u ∉ names) : listing names rules a o u = [] := by
  unfold listing
  rw [map_eq_nil_iff, filter_eq_nil_iff]
  intro x hx
  simp only [Bool.and_eq_true, contains_iff_mem, mem_loadedFor (hrules x hx), not_and]
  intro _ hmem
  split at hmem
  · exact hu hmem
  next hw =>
  rcases hrules x hx with heq | hm
  · exact hw (by simp [heq])
  · exact hu (hm.known hmem)

/-- Who is not named is decided for by the rules for all. -/
theorem requested_of_notMem (hw : wildcard ∈ names) {u : Text} (hu : u ∉ names) :
    requested rules a o u = requested rules a o wildcard := by
  unfold requested
  congr 1
  refine filter_congr fun x hx => ?_
  have hnot : u ∉ x.names := by
    rcases hrules x hx with heq | hm
    · rw [heq, mem_singleton]
      exact fun e => hu (e ▸ hw)
    · exact fun hmem => hu (hm.known hmem)
  simp [appliesTo, hnot]

end Listing

theorem requested_wildcard_eq_nil {u : Text} {a : Action} {o : ObjectType}
    (h : requested rules a o u = []) : requested rules a o wildcard = [] := by
  unfold requested at h ⊢
  rw [map_eq_nil_iff, filter_eq_nil_iff] at h ⊢
  intro x hx hall
  refine h x hx ?_
  simp only [appliesTo, Bool.or_self, Bool.and_eq_true] at hall
  simp only [appliesTo, hall.1, hall.2, Bool.true_or, Bool.and_self]

/-- The rules listed for a request are those of the file for its user, its action and its
object, but for the one that became the mode, and the last of the file first. -/
theorem ruleSet_eq (h : r.Named) (he : r.loadDecisionData = some d) (id : Text) (a : Action)
    (o : ObjectType) : d.ruleSet id a o = (requested (ordinary r.rules) a o id).reverse := by
  obtain ⟨f, hl⟩ := loaded_rules h he
  have hrules : ∀ x ∈ r.rules.reverse.eraseP allAll, x.names = [wildcard] ∨ Members r.names x.names :=
    fun x hx => h.rules x (mem_reverse.1 (mem_of_mem_eraseP hx))
  have hrev : (requested (ordinary r.rules) a o id).reverse =
      requested (r.rules.reverse.eraseP allAll) a o id := by
    unfold requested ordinary
    rw [← map_reverse, ← filter_reverse, reverse_reverse]
  rw [AclData.ruleSet_listed, hl.listed, hl.listed, hrev, listing_of_mem hrules a o h.wildcard_mem]
  by_cases hid : id ∈ r.names
  · rw [listing_of_mem hrules a o hid]
    cases hq : requested (r.rules.reverse.eraseP allAll) a o id with
    | nil => rw [requested_wildcard_eq_nil hq]; rfl
    | cons x l => rfl
  · rw [listing_of_notMem hrules a o hid, requested_of_notMem hrules a o h.wildcard_mem hid]
    exact getD_entry _

theorem findSome?_filter {α β : Type} (p : α → Bool) (f : α → Option β) (l : List α) :
    (l.filter p).findSome? f = l.findSome? fun x => if p x then f x else none := by
  induction l with
  | nil => rfl
  | cons x l ih => cases hp : p x <;> simp [hp, ih, findSome?_cons]

/-- The two reversals cancel: a lookup finds the first rule of the file that matches. -/
theorem iterate_eq (h : r.Named) (he : r.loadDecisionData = some d)
    (lookupMatch : Rule → Option AclResult) (id : Text) (a : Action) (o : ObjectType) :
    d.iterate lookupMatch (d.ruleSet id a o) =
      (firstMatch (fun x => lookupMatch (loadedAt x a)) (ordinary r.rules) id a o).getD (defaultMode r.rules) := by
  have hmode : d.decisionMode = defaultMode r.rules := (loaded_rules h he).choose_spec.mode
  unfold AclData.iterate firstMatch
  rw [ruleSet_eq h he, reverse_reverse, hmode]
  unfold requested
  rw [findSome?_map, findSome?_filter]
  rfl

/-! ## Lookups -/

theorem matchProperties_loadPublish [LexicalCast] (rule : AclRule) (loaded : Rule)
    (id name : Text) (params : Option Params)
    (props : List (SpecProperty × Text)) (limitChecked : Bool) :
    matchProperties (loadPublish rule loaded) id name params props limitChecked =
      matchProperties loaded id name params props limitChecked := by
  have hprop (c : Bool) (p : SpecProperty × Text) : matchProperty (loadPublish rule loaded) id name params c p =
      matchProperty loaded id name params c p := by
    unfold loadPublish
    cases rule.props.find .name <;> rfl
  induction props generalizing limitChecked with
  | nil => rfl
  | cons p props ih =>
    simp only [matchProperties, hprop]
    split
    · exact ih _
    · rfl

/-- What is filled for publish does not change other lookups. -/
theorem lookupMatchRule_loadedAt [LexicalCast] (rule : AclRule) (a : Action) (id name : Text) (params : Option Params) :
    lookupMatchRule (loadedAt rule a) id name params = lookupMatchRule (loadRule rule) id name params := by
  unfold loadedAt
  split
  · unfold lookupMatchRule
    rw [matchProperties_loadPublish]
    unfold loadPublish
    cases rule.props.find .name <;> rfl
  · rfl

theorem named_of_read [LexicalCast] {fileName text : Text} {maxConn maxQueues : Nat}
    (h : (start fileName maxConn maxQueues).read text = some (r, .ok d)) :
    r.Named ∧ r.loadDecisionData = some d := by
  unfold AclReader.read at h
  split at h
  · cases h
  next r1 eof err hlines =>
  split at h
  · cases h
  split at h
  · cases h
  · obtain ⟨d', hd, heq⟩ := map_eq_some_iff.1 h
    cases heq
    exact ⟨Named.readLines (named_start fileName maxConn maxQueues) hlines, hd⟩

theorem exists_read [LexicalCast] (r0 : AclReader) (text : Text) (f : AclReader → AclData → Bool)
    (h : (r0.read text).any (fun p => match p.2 with | .ok d => f p.1 d | .error _ => false) = true) :
    ∃ r d, r0.read text = some (r, .ok d) ∧ f r d = true := by
  cases hread : r0.read text with
  | none => simp [hread] at h
  | some p =>
    obtain ⟨r, d | d⟩ := p
    · simp [hread] at h
    · exact ⟨r, d, rfl, by simpa [hread] using h⟩

/-- A file that begins with a rule for all users and all actions. -/
def denyFirst : Text := "acl deny all all\nacl allow bob@QPID create queue\n".toList

/-- A lookup in the data of a file decides as the first of its ordinary rules that is for the
user, the action and the object and that matches, and without one as the file's last rule
for all users and all actions, wherever that stands. -/
theorem lookup_decides [LexicalCast] {fileName text : Text} {maxConn maxQueues : Nat} {d : AclData}
    (h : (start fileName maxConn maxQueues).read text = some (r, .ok d)) (id : Text) (a : Action)
    (o : ObjectType) (name : Text) (params : Option Params) :
    d.lookup id a o name params =
      (firstMatch (fun x => lookupMatchRule (loadRule x) id name params) (ordinary r.rules) id a o).getD
        (defaultMode r.rules) := by
  obtain ⟨hnamed, hload⟩ := named_of_read h
  unfold AclData.lookup
  rw [iterate_eq hnamed hload]
  simp [lookupMatchRule_loadedAt]

theorem lookup_decides_denyFirst : ∃ r d, (start "acl".toList 0 0).read denyFirst = some (r, .ok d) ∧
    d.lookup "bob@QPID".toList .create .queue "q".toList (some []) =
      (firstMatch (fun x => lookupMatchRule (loadRule x) "bob@QPID".toList "q".toList (some []))
        (ordinary r.rules) "bob@QPID".toList .create .queue).getD (defaultMode r.rules) := by
  obtain ⟨r, d, hread, -⟩ := exists_read (start "acl".toList 0 0) denyFirst (fun _ _ => true) (by decide +kernel)
  exact ⟨r, d, hread, lookup_decides hread ..⟩

/-- The rule that denies everything to everyone is the first of the file for the request, and
a later one decides. -/
theorem denyFirst_allows : ∃ r d, (start "acl".toList 0 0).read denyFirst = some (r, .ok d) ∧
    d.lookup "bob@QPID".toList .create .queue "q".toList (some []) = .allow ∧
    firstMatch (fun x => lookupMatchRule (loadRule x) "bob@QPID".toList "q".toList (some [])) r.rules
      "bob@QPID".toList .create .queue = some .deny := by
  obtain ⟨r, d, hread, hf⟩ := exists_read (start "acl".toList 0 0) denyFirst
    (fun r d => decide (d.lookup "bob@QPID".toList .create .queue "q".toList (some []) = .allow ∧
      firstMatch (fun x => lookupMatchRule (loadRule x) "bob@QPID".toList "q".toList (some [])) r.rules
        "bob@QPID".toList .create .queue = some .deny)) (by decide +kernel)
  exact ⟨r, d, hread, of_decide_eq_true hf⟩

end AclReader

end QB.Impl.Acl
