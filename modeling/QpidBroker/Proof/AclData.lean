import QpidBroker.Proof.AclReader
import QpidBroker.Proof.TopicExchange

/-!
# What a rule of an access control list says of a request

`lookupMatchRule_eq`: for a request with a map of properties the loop over the properties of
a rule decides as `Spec.Acl.decides`, so that `lookup_satisfied` has the decision as the
first rule of the file whose conditions the request satisfies.
-/

namespace QB.Impl.Acl

open Spec.Acl Spec.Topic List AclReader SpecProperty

/-! ## Texts -/

/-- `matchProp` compares as the rule says. -/
theorem matchProp_eq (ruleStr lookupStr : Text) : matchProp ruleStr lookupStr = fits ruleStr lookupStr := by
  unfold matchProp fits
  split
  swap
  · next h => simp [h]
  next h =>
  rw [Bool.eq_iff_iff]
  simp only [h, decide_true, Bool.true_and, Bool.or_eq_true, decide_eq_true_eq]
  rw [prefix_iff_eq_take, length_dropLast]
  constructor
  · exact .inr
  · rintro (rfl | h')
    · exact dropLast_eq_take
    · exact h'

/-- `compareInt` takes a limit of 0 for none. -/
theorem compareInt_upper [LexicalCast] (limit value : Text) :
    compareInt limit value true = limits (fun k n => k ≤ n) limit value := by
  unfold compareInt limits
  rcases lexicalCast 64 limit with _ | _ | n <;> rcases lexicalCast 64 value with _ | k <;> simp

theorem compareInt_lower [LexicalCast] (limit value : Text) :
    compareInt limit value false = limits (fun k n => n ≤ k) limit value := by
  unfold compareInt limits
  rcases lexicalCast 64 limit with _ | _ | n <;> rcases lexicalCast 64 value with _ | k <;> simp

theorem substituteUserId_of_not_hasKeyword {v : Text} (h : hasKeyword v = false) (id : Text) :
    substituteUserId v id = v := by
  simp only [hasKeyword, Bool.or_eq_false_iff, decide_eq_false_iff_not] at h
  obtain ⟨⟨hu, hd⟩, hud⟩ := h
  simp [substituteUserId, substituteString, replaceAll_of_not_infix hu, replaceAll_of_not_infix hd,
    replaceAll_of_not_infix hud]

/-! ## Routing keys -/

theorem addBindingKey_empty (bKey : Text) : addBindingKey {} bKey = (TopicExchange.bind {} "true" bKey).2 := by
  unfold addBindingKey TopicExchange.bind
  have hget (p : Text) : ((({} : TopicKeyNode).add p p.tokens).get p.tokens).getD [] = [] := by
    rw [← TopicKeyNode.boundAt, TopicKeyNode.boundAt_add, TopicKeyNode.boundAt_leaf]
  simp only [hget]
  rfl

/-- A trie of one normalised pattern finds what the pattern matches. -/
theorem findMatches_addBindingKey (pattern key : Text) :
    findMatches (addBindingKey {} (TopicExchange.normalize pattern)) key =
      decide (Matches pattern.tokens key.tokens) := by
  have hbound : Matches (TopicExchange.normalize (TopicExchange.normalize pattern)).tokens key.tokens ↔
      Matches pattern.tokens key.tokens := by
    rw [TopicExchange.matches_normalize, TopicExchange.matches_normalize]
  have h := TopicExchange.holds_empty.bind "true" (TopicExchange.normalize pattern)
  rw [addBindingKey_empty, Bool.eq_iff_iff, decide_eq_true_eq, ← hbound]
  unfold findMatches
  simp only [Bool.not_eq_true', isEmpty_eq_false_iff_exists_mem]
  constructor
  · rintro ⟨p, hp⟩
    obtain ⟨⟨queue, hq⟩, hm⟩ := (h.mem_visited key p).1 hp
    simp only [step, mem_singleton, Prod.mk.injEq] at hq
    exact hq.2 ▸ hm
  · intro hm
    exact ⟨_, (h.mem_visited key _).2 ⟨⟨"true", by simp [step]⟩, hm⟩⟩

/-! ## Conditions -/

variable {p : SpecProperty}

theorem mem_entries_iff {m : SpecPropertyMap} {v : Text} : (p, v) ∈ m.entries ↔ m.find p = some v :=
  Assoc.mem_iff_lookup m.nodup

theorem loadRule_props (rule : AclRule) : (loadRule rule).props = rule.props := by
  unfold loadRule
  split <;> rfl

theorem loadRule_ruleMode (rule : AclRule) : (loadRule rule).ruleMode = rule.res := by
  unfold loadRule
  split <;> rfl

variable {rule : AclRule} {v : Text}

/-- A rule is marked for each property that has a keyword. -/
theorem loadRule_hasUserSub (h : (p, v) ∈ rule.props.entries) :
    (loadRule rule).ruleHasUserSub.contains p = hasKeyword v := by
  have hsub : (loadRule rule).ruleHasUserSub = (rule.props.entries.filter fun e => hasKeyword e.2).map (·.1) := by
    unfold loadRule
    split <;> rfl
  rw [hsub, Bool.eq_iff_iff, contains_iff_mem]
  simp only [mem_map, mem_filter, Prod.exists, exists_and_right, exists_eq_right]
  constructor
  · rintro ⟨v', hv', hk⟩
    rw [mem_entries_iff] at h hv'
    rw [h, Option.some.injEq] at hv'
    rwa [hv']
  · exact fun hk => ⟨v, h, hk⟩

theorem loadRule_matchRoutingKey (h : (.routingkey, v) ∈ rule.props.entries) (key : Text) :
    (loadRule rule).matchRoutingKey key = decide (Matches v.tokens key.tokens) := by
  rw [← findMatches_addBindingKey]
  unfold loadRule Rule.matchRoutingKey
  rw [mem_entries_iff.1 h]
  rfl

theorem matchProp_subst (v id x : Text) :
    (if hasKeyword v then matchProp (substituteUserId v id) x else matchProp v x) =
    fits (substituteUserId v id) x := by
  cases hk : hasKeyword v
  · rw [if_neg (by simp), matchProp_eq, substituteUserId_of_not_hasKeyword hk]
  · rw [if_pos rfl, matchProp_eq]

theorem matchName_eq (h : (.name, v) ∈ rule.props.entries) (id name : Text) :
    matchName (loadRule rule) v id name = fits (substituteUserId v id) name := by
  unfold matchName
  rw [loadRule_hasUserSub h, matchProp_subst]

theorem matchKey_eq (h : (.routingkey, v) ∈ rule.props.entries) (id key : Text) : matchKey (loadRule rule) id key =
      decide (Matches v.tokens (if hasKeyword v then substituteKeywords key id else key).tokens) := by
  unfold matchKey
  rw [loadRule_hasUserSub h]
  cases hk : hasKeyword v
  · rw [if_neg (by simp), if_neg (by simp), loadRule_matchRoutingKey h]
  · rw [if_pos rfl, if_pos rfl, loadRule_matchRoutingKey h]

theorem matchSubst_eq (h : (p, v) ∈ rule.props.entries) (id x : Text) (c : Bool) :
    (if (loadRule rule).ruleHasUserSub.contains p then (matchProp (substituteUserId v id) x, c)
      else (matchProp v x, c)) = (fits (substituteUserId v id) x, c) := by
  rw [loadRule_hasUserSub h, ← matchProp_subst, apply_ite (·, c)]

/-- One property of a request is compared as it should be. -/
theorem matchProperty_eq [LexicalCast] {e : SpecProperty × Text} (h : e ∈ rule.props.entries)
    (id name : Text) (m : Params)
    (c : Bool) : matchProperty (loadRule rule) id name (some m) c e =
      (satisfies id name m e, if satisfies id name m e then c && within m e else c) := by
  obtain ⟨p, v⟩ := e
  cases p with
  | name => simp [matchProperty, satisfies, within, matchName_eq h]
  | lowerLimit q =>
    cases hx : m.lookup (limited q) <;>
      simp [matchProperty, satisfies, within, param, hx, compareInt_lower]
  | upperLimit q =>
    cases hx : m.lookup (limited q) <;>
      simp [matchProperty, satisfies, within, param, hx, compareInt_upper]
  | routingkey =>
    cases hx : m.lookup .routingkey <;>
      simp [matchProperty, satisfies, within, param, hx, matchKey_eq h]
  | alternate =>
    cases hx : m.lookup .alternate with
    | none => simp [matchProperty, satisfies, param, hx]
    | some x =>
      have := matchSubst_eq h id x c
      simp_all [matchProperty, satisfies, within, param]
  | queuename =>
    cases hx : m.lookup .queuename with
    | none => simp [matchProperty, satisfies, param, hx]
    | some x =>
      have := matchSubst_eq h id x c
      simp_all [matchProperty, satisfies, within, param]
  | _ =>
    simp only [matchProperty, satisfies, within]
    split
    · next hx => simp only [hx]; simp
    · next x hx => simp only [hx]; simp [matchProp_eq]

/-- The loop over the properties stops at the first that is not satisfied. -/
theorem matchProperties_eq [LexicalCast] (id name : Text) (m : Params) {props : List (SpecProperty × Text)}
    (h : ∀ e ∈ props, e ∈ rule.props.entries) (c : Bool) :
    (matchProperties (loadRule rule) id name (some m) props c).1 = props.all (satisfies id name m) ∧
    (props.all (satisfies id name m) = true →
      (matchProperties (loadRule rule) id name (some m) props c).2 = (c && props.all (within m))) := by
  induction props generalizing c with
  | nil => simp [matchProperties]
  | cons e props ih =>
    obtain ⟨he, h⟩ := forall_mem_cons.1 h
    rw [matchProperties, matchProperty_eq he]
    cases hs : satisfies id name m e
    · simp [hs]
    · simp only [all_cons, hs, ← Bool.and_assoc]
      exact ih h _

/-- For a request with a map the loop decides as the conditions of the rule say. -/
theorem lookupMatchRule_eq [LexicalCast] (rule : AclRule) (id name : Text) (m : Params) :
    lookupMatchRule (loadRule rule) id name (some m) = decides id name m rule := by
  obtain ⟨hfst, hsnd⟩ := @matchProperties_eq rule _ id name m rule.props.entries (fun e he => he) true
  unfold lookupMatchRule decides
  rw [loadRule_props, loadRule_ruleMode]
  split
  · next c heq =>
    rw [heq] at hfst hsnd
    obtain rfl : c = rule.props.entries.all (within m) := by simpa using hsnd hfst.symm
    rw [if_pos hfst.symm]
  · next c heq =>
    rw [heq] at hfst
    rw [if_neg (by simp [← hfst])]

/-! ## Lookups -/

/-- A lookup with a map of properties decides as the first rule of the file, but for the one
that is the default, whose conditions the request satisfies. -/
theorem lookup_satisfied [LexicalCast] {fileName text : Text} {maxConn maxQueues : Nat} {r : AclReader} {d : AclData}
    (h : (start fileName maxConn maxQueues).read text = some (r, .ok d)) (id : Text) (a : Action)
    (o : ObjectType) (name : Text) (m : Params) :
    d.lookup id a o name (some m) =
      (firstMatch (decides id name m) (ordinary r.rules) id a o).getD (defaultMode r.rules) := by
  obtain ⟨hnamed, hload⟩ := named_of_read h
  unfold AclData.lookup
  rw [iterate_eq hnamed hload]
  simp [lookupMatchRule_loadedAt, lookupMatchRule_eq]

/-- A file with a rule for durable queues up to a size. -/
def durableOnly : Text :=
  "acl allow bob@QPID create queue durable=true queuemaxsizeupperlimit=100\nacl deny-log all all\n".toList

theorem lookup_satisfied_durableOnly : ∃ r d, (start "acl".toList 0 0).read durableOnly = some (r, .ok d) ∧
      d.lookup "bob@QPID".toList .create .queue "q".toList (some [(.durable, "true".toList)]) =
        (firstMatch (decides "bob@QPID".toList "q".toList [(.durable, "true".toList)]) (ordinary r.rules)
          "bob@QPID".toList .create .queue).getD (defaultMode r.rules) := by
  obtain ⟨r, d, hread, -⟩ := exists_read (start "acl".toList 0 0) durableOnly (fun _ _ => true) (by decide +kernel)
  exact ⟨r, d, hread, lookup_satisfied hread ..⟩

/-- The rule denies a queue above its limit, and it allows the queue of a request without
a map, which with an empty one it does not. -/
theorem durableOnly_applies : ∃ r d, (start "acl".toList 0 0).read durableOnly = some (r, .ok d) ∧
      d.decisionMode = .denylog ∧
      d.lookup "bob@QPID".toList .create .queue "q".toList
        (some [(.durable, "true".toList), (.maxqueuesize, "200".toList)]) = .deny ∧
      d.lookup "bob@QPID".toList .create .queue "q".toList none = .allow ∧
      d.lookup "bob@QPID".toList .create .queue "q".toList (some []) = .denylog := by
  obtain ⟨r, d, hread, hf⟩ := exists_read (start "acl".toList 0 0) durableOnly
    (fun _ d => decide (d.decisionMode = .denylog ∧ d.lookup "bob@QPID".toList .create .queue "q".toList
        (some [(.durable, "true".toList), (.maxqueuesize, "200".toList)]) = .deny ∧
      d.lookup "bob@QPID".toList .create .queue "q".toList none = .allow ∧
      d.lookup "bob@QPID".toList .create .queue "q".toList (some []) = .denylog)) (by decide +kernel)
  exact ⟨r, d, hread, of_decide_eq_true hf⟩

end QB.Impl.Acl
