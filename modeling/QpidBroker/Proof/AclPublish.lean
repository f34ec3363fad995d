import QpidBroker.Proof.AclData

/-!
# The lookup of publish

The lookup that is made for each message reads the name and the routing key of a rule and nothing
else, and it knows the default exchange by its blank name (`published`).
-/

namespace QB.Impl.Acl

open Spec.Acl List AclReader

variable {rule : AclRule} {id name key : Text}

theorem decides_of_named [LexicalCast] (h : ∀ e ∈ rule.props.entries, e.1 = .name ∨ e.1 = .routingkey) :
    decides id name [(.routingkey, key)] rule =
      if (rule.props.find .name).all (fun v => satisfies id name [] (.name, v)) &&
        (rule.props.find .routingkey).all fun v => satisfies id name [(.routingkey, key)] (.routingkey, v)
      then some rule.res else none := by
  have hwit : rule.props.entries.all (within [(.routingkey, key)]) = true := by
    rw [all_eq_true]
    rintro ⟨p, v⟩ he
    rcases h _ he with hp | hp <;> cases hp <;> rfl
  rw [decides, hwit]
  refine if_congr ?_ rfl rfl
  simp only [all_eq_true, Bool.and_eq_true, Option.all_eq_true, ← mem_entries_iff]
  refine ⟨fun hs => ⟨fun v hv => hs _ hv, fun v hv => hs _ hv⟩, ?_⟩
  rintro ⟨hn, hk⟩ ⟨p, v⟩ he
  rcases h _ he with hp | hp <;> cases hp
  · exact hn v he
  · exact hk v he

theorem find_published (rule : AclRule) :
    (published rule).props.find .name = (rule.props.find .name).map (fun v => if v = defaultExchange then [] else v) ∧
    (published rule).props.find .routingkey = rule.props.find .routingkey ∧
    ∀ e ∈ (published rule).props.entries, e.1 = .name ∨ e.1 = .routingkey := by
  unfold published publishedProps
  rcases rule.props.find .name with _ | v <;> rcases rule.props.find .routingkey with _ | k <;>
    exact ⟨rfl, rfl, by simp [SpecPropertyMap.empty, SpecPropertyMap.insert]⟩

theorem matchPublished_eq (v : Text) : (if hasKeyword v then matchProp (substituteUserId v id) name
      else if v = defaultExchange then name.isEmpty else matchProp v name) =
      fits (substituteUserId (if v = defaultExchange then [] else v) id) name := by
  by_cases hv : v = defaultExchange
  · subst hv
    rw [if_neg (by decide), if_pos rfl, substituteUserId_of_not_hasKeyword (by decide)]
    cases name <;> simp [fits]
  rw [if_neg hv, if_neg hv, matchProp_subst]

theorem lookupMatchPublishExchangeRule_eq [LexicalCast] (hkey : hasKeyword key = false) :
    lookupMatchPublishExchangeRule (loadedAt rule .publish) id name key =
      decides id name [(.routingkey, key)] (published rule) := by
  obtain ⟨hname, hrou, hmem⟩ := find_published rule
  have hloa : loadedAt rule .publish = loadPublish rule (loadRule rule) := if_pos (.inr rfl)
  rw [decides_of_named hmem, hname, hrou, hloa]
  refine if_congr (Bool.eq_iff_iff.1 (congrArg₂ _ ?_ ?_)) (congrArg some ?_) rfl
  · rcases hn : rule.props.find .name with _ | v
    · simp only [loadPublish, hn, loadRule]
      split <;> rfl
    · have hsub := loadRule_hasUserSub (mem_entries_iff.2 hn)
      simp only [loadPublish, hn, hsub, decide_eq_true_eq]
      exact matchPublished_eq v
  · have hmatch : matchKey (loadPublish rule (loadRule rule)) id key = matchKey (loadRule rule) id key := by
      unfold loadPublish
      split <;> rfl
    have hin : (loadPublish rule (loadRule rule)).pubRoutingKeyInRule = (rule.props.find .routingkey).isSome := by
      unfold loadPublish loadRule
      split <;> split <;> simp_all [Rule.addTopicTest]
    rw [hin, hkey, hmatch]
    rcases hk : rule.props.find .routingkey with _ | k
    · rfl
    · exact matchKey_eq (mem_entries_iff.2 hk) id key
  · unfold loadPublish
    split <;> exact loadRule_ruleMode rule

theorem decides_published [LexicalCast] (h : Alike name rule) :
    decides id name [(.routingkey, key)] (published rule) = decides id name [(.routingkey, key)] rule := by
  obtain ⟨hname, hrou, hmem⟩ := find_published rule
  rw [decides_of_named hmem, decides_of_named h.1, hname, hrou]
  refine if_congr (Bool.eq_iff_iff.1 (congrArg (· && _) ?_)) rfl rfl
  rcases hn : rule.props.find .name with _ | v
  · rfl
  by_cases hv : v = defaultExchange
  swap
  · rw [Option.map_some, if_neg hv]
  subst hv
  obtain ⟨hblank, hdef⟩ := h.2 hn
  rw [Option.map_some, if_pos rfl]
  simp only [Option.all_some, satisfies, substituteUserId_of_not_hasKeyword (show hasKeyword [] = false by decide),
    substituteUserId_of_not_hasKeyword (show hasKeyword defaultExchange = false by decide)]
  simp [fits, hblank.symm, hdef.symm, show defaultExchange.getLast? = some 't' by decide]

/-- **The lookup of publish decides as the general one on the rules as they count there.** The two
agree where that makes no difference to the rules for the request. -/
theorem lookupPublish_eq [LexicalCast] {fileName text : Text} {maxConn maxQueues : Nat} {r : AclReader} {d : AclData}
    (h : (start fileName maxConn maxQueues).read text = some (r, .ok d)) (id name : Text)
    (hkey : hasKeyword key = false) :
    d.lookup id .publish .exchange name (some [(.routingkey, key)]) =
      (publishing id name key (ordinary r.rules)).getD (defaultMode r.rules) ∧
    d.lookupPublish id .publish .exchange name key =
      (publishing id name key ((ordinary r.rules).map published)).getD (defaultMode r.rules) ∧
    ((∀ rule ∈ ordinary r.rules, appliesTo rule id → covers rule .publish .exchange → Alike name rule) →
      d.lookupPublish id .publish .exchange name key =
        d.lookup id .publish .exchange name (some [(.routingkey, key)])) := by
  obtain ⟨hnamed, hload⟩ := named_of_read h
  have hgen : d.lookup id .publish .exchange name (some [(.routingkey, key)]) =
      (publishing id name key (ordinary r.rules)).getD (defaultMode r.rules) := by
    unfold AclData.lookup publishing
    rw [iterate_eq hnamed hload]
    simp [lookupMatchRule_loadedAt, lookupMatchRule_eq]
  have hpub : d.lookupPublish id .publish .exchange name key =
      (publishing id name key ((ordinary r.rules).map published)).getD (defaultMode r.rules) := by
    unfold AclData.lookupPublish publishing firstMatch
    rw [iterate_eq hnamed hload, findSome?_map]
    simp only [lookupMatchPublishExchangeRule_eq hkey]
    rfl
  refine ⟨hgen, hpub, fun halike => ?_⟩
  rw [hgen, hpub]
  unfold publishing firstMatch
  rw [findSome?_map, ← head?_filterMap, ← head?_filterMap]
  congr 2
  refine filterMap_congr fun rule hrule => ite_congr rfl (fun ha => ?_) fun _ => rfl
  rw [Bool.and_eq_true] at ha
  exact decides_published (halike rule hrule ha.1 ha.2)

/-- Rules for the default exchange, and with a property that is not one of publishing. -/
def publishRules : Text := ("acl allow bob@QPID publish exchange name=amq.default routingkey=q\n" ++
  "acl allow bob@QPID publish exchange name=x durable=true\nacl deny all all\n").toList

theorem lookupPublish_eq_publishRules : ∃ r d, (start "acl".toList 0 0).read publishRules = some (r, .ok d) ∧
      d.lookupPublish "bob@QPID".toList .publish .exchange [] "q".toList =
        (publishing "bob@QPID".toList [] "q".toList ((ordinary r.rules).map published)).getD (defaultMode r.rules) := by
  obtain ⟨r, d, hread, -⟩ := exists_read (start "acl".toList 0 0) publishRules (fun _ _ => true) (by decide +kernel)
  exact ⟨r, d, hread, (lookupPublish_eq hread _ _ (by decide)).2.1⟩

/-- The general lookup does not know the default exchange by its blank name, and it asks for every
property of a rule. -/
theorem lookupPublish_ne :
    ∃ r d, (start "acl".toList 0 0).read publishRules = some (r, .ok d) ∧ ∀ q ∈ [("", "q"), ("x", "k")],
      d.lookupPublish "bob@QPID".toList .publish .exchange q.1.toList q.2.toList = .allow ∧
      d.lookup "bob@QPID".toList .publish .exchange q.1.toList (some [(.routingkey, q.2.toList)]) = .deny := by
  obtain ⟨r, d, hread, hf⟩ := exists_read (start "acl".toList 0 0) publishRules
    (fun _ d => decide (∀ q ∈ [("", "q"), ("x", "k")],
      d.lookupPublish "bob@QPID".toList .publish .exchange q.1.toList q.2.toList = .allow ∧
      d.lookup "bob@QPID".toList .publish .exchange q.1.toList (some [(.routingkey, q.2.toList)]) = .deny))
    (by decide +kernel)
  exact ⟨r, d, hread, of_decide_eq_true hf⟩

end QB.Impl.Acl
