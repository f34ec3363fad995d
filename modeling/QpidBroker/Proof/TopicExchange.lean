import QpidBroker.Framework.Assoc
import QpidBroker.Proof.Normalize

/-!
# Topic routing is exact

The node for a list of tokens is found by following children (`find`). What each
operation does to the bindings is said of every such node, and so
is the invariant (`Wf`). A search visits the bound nodes whose tokens match
(`mem_iterateMatch`). No node is left without a bound one at it or below it (`Live`), as
`remove` prunes what is dead.
-/

namespace QB.Impl

open Spec.Topic List Option

namespace TopicKeyNode

variable {n c m : TopicKeyNode} {t : Text}

/-! ## Children -/

variable {l : List (Text × TopicKeyNode)} {o : Option TopicKeyNode} {f : List String → List String} {v : Text}

theorem lookup_set (o : Option TopicKeyNode) (t' : Text) :
    ((o.map (t, ·)).toList ++ l.filter (·.1 ≠ t)).lookup t' = if t' = t then o else l.lookup t' := by
  cases o with
  | none => simpa using Assoc.lookup_filter_ne t t' l
  | some c =>
    simp only [map_some, toList_some, singleton_append, lookup_cons]
    by_cases h : t' = t
    · simp [h]
    · rw [beq_eq_false_iff_ne.2 h]
      simp only [Assoc.lookup_filter_ne, if_neg h]

theorem child_setChild (o : Option TopicKeyNode) (t' : Text) :
    (n.setChild t o).child t' = if t' = t then o else n.child t' := by
  unfold setChild child
  by_cases hs : t = .star
  · subst hs
    by_cases h : t' = .star <;> simp [h]
  rw [if_neg hs]
  by_cases hh : t = .hash
  · subst hh
    by_cases h : t' = .star
    · simp [h, TopicExchange.star_ne_hash]
    · by_cases h' : t' = .hash <;> simp [h', hs]
  rw [if_neg hh]
  by_cases h : t' = .star
  · subst h; simp [Ne.symm hs]
  · by_cases h' : t' = .hash
    · subst h'; simp [Ne.symm hh]
    · simp only [h, h', if_false, lookup_set]

@[simp] theorem setChild_token (o : Option TopicKeyNode) : (n.setChild t o).token = n.token := by
  unfold setChild; split <;> [rfl; (split <;> rfl)]

@[simp] theorem setChild_routePattern (o : Option TopicKeyNode) : (n.setChild t o).routePattern = n.routePattern := by
  unfold setChild; split <;> [rfl; (split <;> rfl)]

@[simp] theorem setChild_bindings (o : Option TopicKeyNode) : (n.setChild t o).bindings = n.bindings := by
  unfold setChild; split <;> [rfl; (split <;> rfl)]

/-- A map of children never has the wildcards as keys. -/
def NoWild (n : TopicKeyNode) : Prop :=
  n.childTokens.lookup .star = none ∧ n.childTokens.lookup .hash = none

theorem NoWild.setChild (h : NoWild n) (o : Option TopicKeyNode) : NoWild (n.setChild t o) := by
  unfold TopicKeyNode.setChild
  split
  · exact h
  split
  · exact h
  · rename_i hs hh
    exact ⟨by rw [lookup_set, if_neg (Ne.symm hs), h.1], by rw [lookup_set, if_neg (Ne.symm hh), h.2]⟩

/-! ## The node for a list of tokens -/

/-- The node that a list of tokens leads to. -/
def find : List Text → TopicKeyNode → Option TopicKeyNode
  | [], n => some n
  | t :: path, n => (n.child t).bind (find path)

theorem get_eq_find (path : List Text) (n : TopicKeyNode) : n.get path = (n.find path).map (·.bindings) := by
  induction path generalizing n with
  | nil => rfl
  | cons t path ih =>
    rw [get, find]
    cases n.child t with
    | none => rfl
    | some c => exact ih c

/-- The bindings at a path, none if there is no node. -/
def boundAt (path : List Text) (n : TopicKeyNode) : List String := (n.get path).getD []

theorem boundAt_cons (path : List Text) : n.boundAt (t :: path) = ((n.child t).map (boundAt path)).getD [] := by
  unfold boundAt
  rw [get]
  cases n.child t <;> rfl

/-- `P` holds of every node, with the tokens that lead to it from the root. -/
def All (P : List Text → TopicKeyNode → Prop) (pre : List Text) (n : TopicKeyNode) : Prop :=
  ∀ path m, n.find path = some m → P (pre ++ path) m

variable {P : List Text → TopicKeyNode → Prop} {pre : List Text}

theorem all_iff : All P pre n ↔ P pre n ∧ ∀ t c, n.child t = some c → All P (pre ++ [t]) c := by
  constructor
  · intro h
    refine ⟨by simpa using h [] n rfl, fun t c hc path m hm => ?_⟩
    have := h (t :: path) m (by rw [find, hc]; exact hm)
    simpa using this
  rintro ⟨h1, h2⟩ path m hm
  cases path with
  | nil =>
    obtain rfl : n = m := by simpa [find] using hm
    simpa using h1
  | cons t path =>
    obtain ⟨c, hc, hm⟩ := bind_eq_some_iff.1 hm
    simpa using h2 t c hc path m hm

theorem All.setChild (h : All P pre n) (hn : P pre (n.setChild t o))
    (hc : ∀ c, o = some c → All P (pre ++ [t]) c) : All P pre (n.setChild t o) := by
  refine all_iff.2 ⟨hn, fun t' c hc' => ?_⟩
  rw [child_setChild] at hc'
  split at hc'
  · rename_i e
    subst e
    exact hc c hc'
  · exact (all_iff.1 h).2 t' c hc'

/-! ## The invariant -/

/-- A node that the tokens `path` lead to from the root. -/
structure Wf (path : List Text) (m : TopicKeyNode) : Prop where
  token : m.token = path.getLastD []
  noWild : NoWild m
  /-- Else the search of its children on an empty key would be missed. -/
  noHash : m.token = .hash → m.child .hash = none
  pattern : m.routePattern = [] ∨ m.routePattern.tokens = path
  bound : m.bindings ≠ [] → m.routePattern.tokens = path
  distinct : (m.childTokens.map Prod.fst).Nodup

theorem Wf.setChild (h : Wf pre n) (ht : n.token = .hash → t = .hash → o = none) : Wf pre (n.setChild t o) where
  token := by simpa using h.token
  noWild := h.noWild.setChild o
  noHash hn := by
    rw [setChild_token] at hn
    rw [child_setChild]
    split
    · exact ht hn (Eq.symm ‹_›)
    · exact h.noHash hn
  pattern := by simpa using h.pattern
  bound := by simpa using h.bound
  distinct := by
    have hfil := h.distinct.sublist ((filter_sublist (p := (·.1 ≠ t))).map Prod.fst)
    unfold TopicKeyNode.setChild
    split
    · exact h.distinct
    split
    · exact h.distinct
    cases o with
    | none => exact hfil
    | some c => exact nodup_cons.2 ⟨by simp, hfil⟩

theorem child_leaf (t' : Text) : child { token := t } t' = none := by
  unfold child
  split <;> [rfl; (split <;> rfl)]

theorem wf_leaf (pre : List Text) : All Wf (pre ++ [t]) { token := t } := by
  refine all_iff.2 ⟨⟨by simp, ⟨rfl, rfl⟩, fun _ => child_leaf _, .inl rfl, fun h => absurd rfl h, .nil⟩,
    fun t' c hc => ?_⟩
  rw [child_leaf] at hc
  cases hc

theorem wf_empty : All Wf [] {} := by
  refine all_iff.2 ⟨⟨rfl, ⟨rfl, rfl⟩, fun _ => child_leaf _, .inl rfl, fun h => absurd rfl h, .nil⟩,
    fun t' c hc => ?_⟩
  rw [child_leaf] at hc
  cases hc

theorem All.childGetD (h : All Wf pre n) (t : Text) : All Wf (pre ++ [t]) ((n.child t).getD { token := t }) := by
  cases hc : n.child t with
  | none => exact wf_leaf pre
  | some c => exact (all_iff.1 h).2 t c hc

/-! ## Adding a node -/

section Add

variable {fullPattern : Text}

/-- Adding a path keeps the tree well-formed. -/
theorem all_add (bKey : List Text) (h : All Wf pre n) (hs : TopicExchange.Squeezed (pre ++ bKey))
    (hf : fullPattern.tokens = pre ++ bKey) : All Wf pre (add fullPattern bKey n) := by
  induction bKey generalizing pre n with
  | nil =>
    rw [add]
    split
    · obtain ⟨hw, hc⟩ := all_iff.1 h
      rw [append_nil] at hf
      exact all_iff.2 ⟨⟨hw.token, hw.noWild, hw.noHash, .inr hf, fun _ => hf, hw.distinct⟩, hc⟩
    · exact h
  | cons t bKey ih =>
    have hw := (all_iff.1 h).1
    refine h.setChild (hw.setChild fun hn ht => ?_) fun c hc => ?_
    · -- `pre` ends with the token of the node
      have hl : pre.getLast? = some .hash := by
        rw [hw.token, getLastD_eq_getLast?] at hn
        cases hp : pre.getLast? with
        | none => rw [hp] at hn; exact absurd hn (by decide)
        | some t => rw [hp] at hn; exact congrArg some hn
      exact absurd ht ((isChain_append.1 hs).2.2 .hash hl t rfl rfl).1
    · cases hc
      refine ih (h.childGetD t) ?_ ?_ <;> rw [append_assoc]
      exacts [hs, hf]

/-- The node of the path is there after it was added. -/
theorem find_add (bKey : List Text) (h : All Wf pre n) (hf : fullPattern.tokens = pre ++ bKey) :
    ∃ m, (add fullPattern bKey n).find bKey = some m ∧ m.routePattern.tokens = pre ++ bKey := by
  induction bKey generalizing pre n with
  | nil =>
    rw [append_nil] at *
    refine ⟨_, rfl, ?_⟩
    rw [add]
    split
    · exact hf
    · rename_i he
      exact ((all_iff.1 h).1.pattern).resolve_left fun e => he (by simp [e])
  | cons t bKey ih =>
    rw [add, find, child_setChild, if_pos rfl]
    have := ih (h.childGetD t) (by rw [hf, append_assoc, singleton_append])
    rwa [append_assoc] at this

theorem boundAt_leaf (path : List Text) : boundAt path { token := t } = [] := by
  cases path with
  | nil => rfl
  | cons t' path => rw [boundAt_cons, child_leaf]; rfl

/-- Adding a path binds nothing. -/
theorem boundAt_add (bKey path : List Text) : (add fullPattern bKey n).boundAt path = n.boundAt path := by
  induction bKey generalizing n path with
  | nil =>
    rw [add]
    split
    · cases path <;> rfl
    · rfl
  | cons t bKey ih =>
    rw [add]
    cases path with
    | nil => simp [boundAt, get]
    | cons t' path =>
      rw [boundAt_cons, boundAt_cons, child_setChild]
      split
      swap
      · rfl
      rename_i e
      subst e
      simp only [map_some, ih]
      cases n.child t' with
      | none => exact boundAt_leaf path
      | some c => rfl

end Add

/-! ## Changing what is bound -/

theorem all_modify (bKey : List Text) (h : All Wf pre n)
    (hf : ∀ m, n.find bKey = some m → f m.bindings ≠ [] → m.routePattern.tokens = pre ++ bKey) :
    All Wf pre (n.modify f bKey) := by
  induction bKey generalizing pre n with
  | nil =>
    obtain ⟨hw, hc⟩ := all_iff.1 h
    rw [append_nil] at hf
    exact all_iff.2 ⟨⟨hw.token, hw.noWild, hw.noHash, hw.pattern, hf n rfl, hw.distinct⟩, hc⟩
  | cons t bKey ih =>
    obtain ⟨hw, hc⟩ := all_iff.1 h
    refine h.setChild (hw.setChild ?_) fun c' hc' => ?_
    · rintro hn rfl
      rw [hw.noHash hn]
      rfl
    obtain ⟨c, e, rfl⟩ := map_eq_some_iff.1 hc'
    refine ih (hc t c e) fun m hm hne => ?_
    rw [append_assoc]
    exact hf m (by rw [find, e]; exact hm) hne

/-- A change at a path is not seen at others. -/
theorem boundAt_modify {bKey : List Text} (hm : (n.find bKey).isSome)
    (path : List Text) : (n.modify f bKey).boundAt path =
      if path = bKey then f (n.boundAt path) else n.boundAt path := by
  induction bKey generalizing n path with
  | nil => cases path <;> rfl
  | cons t bKey ih =>
    rw [modify]
    cases path with
    | nil => simp [boundAt, get]
    | cons t' path =>
      rw [boundAt_cons, boundAt_cons, child_setChild]
      by_cases e : t' = t
      swap
      · rw [if_neg e, if_neg (by simp [e])]
      subst e
      rw [find] at hm
      cases hc : n.child t' with
      | none => simp [hc] at hm
      | some c =>
        rw [hc] at hm
        simp [ih hm]

/-! ## Pruning dead branches -/

theorem child_of_isDead (h : n.isDead = true) (t : Text) : n.child t = none := by
  simp only [isDead, Bool.and_eq_true, isNone_iff_eq_none, List.isEmpty_iff] at h
  obtain ⟨⟨⟨h1, h2⟩, h3⟩, -⟩ := h
  unfold child
  rw [h1, h2, h3]
  split <;> [rfl; (split <;> rfl)]

theorem boundAt_of_isDead (h : n.isDead = true) (path : List Text) : n.boundAt path = [] := by
  cases path with
  | nil =>
    simp only [isDead, Bool.and_eq_true, List.isEmpty_iff] at h
    exact h.2
  | cons t path => rw [boundAt_cons, child_of_isDead h]; rfl

theorem remove_fst (bKey : List Text) (n : TopicKeyNode) : (n.remove bKey).1 = (n.remove bKey).2.isDead := by
  cases bKey with
  | nil => rfl
  | cons t bKey => rw [remove]; split <;> rfl

/-- The tree without the branches that are dead, and a node that may be dead itself. -/
theorem remove_cons (bKey : List Text) : (n.remove (t :: bKey)).2 = match n.child t with
    | none => n
    | some c => n.setChild t (if (c.remove bKey).2.isDead then none else some (c.remove bKey).2) := by
  rw [remove]
  cases n.child t with
  | none => rfl
  | some c =>
    simp only [remove_fst]
    split <;> rfl

theorem all_remove (bKey : List Text) (h : All Wf pre n) : All Wf pre (n.remove bKey).2 := by
  induction bKey generalizing pre n with
  | nil => exact h
  | cons t bKey ih =>
    rw [remove_cons]
    obtain ⟨hw, hc⟩ := all_iff.1 h
    cases e : n.child t with
    | none => exact h
    | some c =>
      refine h.setChild (hw.setChild ?_) fun c' hc' => ?_
      · rintro hn rfl
        rw [hw.noHash hn] at e
        cases e
      split at hc'
      · cases hc'
      · cases hc'
        exact ih (hc t c e)

theorem boundAt_remove (bKey path : List Text) : (n.remove bKey).2.boundAt path = n.boundAt path := by
  induction bKey generalizing n path with
  | nil => rfl
  | cons t bKey ih =>
    rw [remove_cons]
    cases e : n.child t with
    | none => rfl
    | some c =>
      cases path with
      | nil => simp [boundAt, get]
      | cons t' path =>
        simp only [boundAt_cons, child_setChild]
        by_cases ht : t' = t
        swap
        · rw [if_neg ht]
        subst ht
        rw [if_pos rfl, e]
        split
        · rename_i hd
          exact (by rw [← ih, boundAt_of_isDead hd] : c.boundAt path = []).symm
        · exact ih path

/-! ## What a search visits -/

/-- A bound node with the pattern `v`. -/
def BoundTo (n : TopicKeyNode) (path : List Text) (v : Text) : Prop :=
  ∃ m, n.find path = some m ∧ m.bindings ≠ [] ∧ m.routePattern = v

/-- The tokens below a node match what is left of the key when the node is searched:
a wildcard itself still has to match. -/
def Takes (n : TopicKeyNode) (path key : List Text) : Prop :=
  if n.token = .star ∨ n.token = .hash then Matches (n.token :: path) key else Matches path key

theorem takes_wild (h : n.token = .star ∨ n.token = .hash) (path key : List Text) :
    n.Takes path key ↔ Matches (n.token :: path) key := by
  rw [Takes, if_pos h]

theorem takes_literal (h : ¬(n.token = .star ∨ n.token = .hash)) (path key : List Text) :
    n.Takes path key ↔ Matches path key := by
  rw [Takes, if_neg h]

theorem boundTo_nil : n.BoundTo [] v ↔ v ∈ n.visit := by
  unfold BoundTo visit
  simp only [find, List.isEmpty_iff]
  by_cases h : n.bindings = [] <;> simp [eq_comm]

theorem boundTo_cons {path : List Text} : n.BoundTo (t :: path) v ↔ ∃ c, n.child t = some c ∧
    c.BoundTo path v := by
  unfold BoundTo
  simp only [find, bind_eq_some_iff]
  constructor
  · rintro ⟨m, ⟨c, hc, hm⟩, h⟩
    exact ⟨c, hc, m, hm, h⟩
  · rintro ⟨c, hc, m, hm, h⟩
    exact ⟨m, ⟨c, hc, hm⟩, h⟩

@[simp] theorem child_star (n : TopicKeyNode) : n.child .star = n.starChild := rfl

@[simp] theorem child_hash (n : TopicKeyNode) : n.child .hash = n.hashChild := rfl

theorem mem_iterateMatchChild {key : List Text} :
    v ∈ iterateMatchChild o key ↔ ∃ c, o = some c ∧ v ∈ c.iterateMatch key := by
  cases o <;> simp [iterateMatchChild]

theorem mem_iterateMatchToken {key : List Text} :
    v ∈ iterateMatchToken l t key ↔ ∃ c, l.lookup t = some c ∧ v ∈ c.iterateMatch key := by
  induction l with
  | nil => simp [iterateMatchToken]
  | cons e l ih =>
    obtain ⟨t', c⟩ := e
    rw [iterateMatchToken, lookup_cons]
    by_cases h : t = t'
    · simp [h]
    · rw [if_neg h, ih, beq_eq_false_iff_ne.2 h]

theorem NoWild.lookup (h : NoWild n) : n.childTokens.lookup t = some c ↔
    t ≠ .star ∧ t ≠ .hash ∧ n.child t = some c := by
  unfold child
  by_cases hs : t = .star
  · simp [hs, h.1]
  · by_cases hh : t = .hash
    · simp [hh, h.2]
    · simp [hs, hh]

theorem sizeOf_child (h : n.child t = some c) : sizeOf c < sizeOf n := by
  obtain ⟨token, routePattern, bindings, childTokens, starChild, hashChild⟩ := n
  unfold child at h
  split at h
  · subst h
    simp
    omega
  split at h
  · subst h
    simp
    omega
  obtain ⟨l1, l2, rfl, -⟩ := lookup_eq_some_iff.1 h
  have hm : sizeOf (t, c) < sizeOf (l1 ++ (t, c) :: l2) := sizeOf_lt_of_mem (by simp)
  simp at hm ⊢
  omega

/-- The search of the children, if that of each child is right. -/
theorem mem_iterateMatchChildren (h : All Wf pre n)
    (ih : ∀ t c key v, n.child t = some c →
      (v ∈ c.iterateMatch key ↔ ∃ path, c.BoundTo path v ∧ c.Takes path key))
    (key : List Text) (v : Text) :
    v ∈ n.iterateMatchChildren key ↔ ∃ t path, n.BoundTo (t :: path) v ∧ Matches (t :: path) key := by
  obtain ⟨hw, hc⟩ := all_iff.1 h
  have htoken : ∀ {t c}, n.child t = some c → c.token = t := fun e => by
    simpa using (all_iff.1 (hc _ _ e)).1.token
  have hwild : ∀ t, t = .star ∨ t = .hash → ∀ key, v ∈ iterateMatchChild (n.child t) key ↔
      ∃ path, n.BoundTo (t :: path) v ∧ Matches (t :: path) key := by
    intro t ht key
    simp only [mem_iterateMatchChild, boundTo_cons]
    constructor
    · rintro ⟨c, e, hv⟩
      obtain ⟨path, hb, hm⟩ := (ih t c key v e).1 hv
      rw [takes_wild (by rwa [htoken e]), htoken e] at hm
      exact ⟨path, ⟨c, e, hb⟩, hm⟩
    · rintro ⟨path, ⟨c, e, hb⟩, hm⟩
      refine ⟨c, e, (ih t c key v e).2 ⟨path, hb, ?_⟩⟩
      rwa [takes_wild (by rwa [htoken e]), htoken e]
  have hlit : ∀ u newKey, v ∈ iterateMatchToken n.childTokens u newKey ↔
      u ≠ .star ∧ u ≠ .hash ∧ ∃ path, n.BoundTo (u :: path) v ∧ Matches path newKey := by
    intro u newKey
    simp only [mem_iterateMatchToken, hw.noWild.lookup, boundTo_cons]
    constructor
    · rintro ⟨c, ⟨hs, hh, e⟩, hv⟩
      obtain ⟨path, hb, hm⟩ := (ih u c newKey v e).1 hv
      rw [takes_literal (by simp [htoken e, hs, hh])] at hm
      exact ⟨hs, hh, path, ⟨c, e, hb⟩, hm⟩
    · rintro ⟨hs, hh, path, ⟨c, e, hb⟩, hm⟩
      refine ⟨c, ⟨hs, hh, e⟩, (ih u c newKey v e).2 ⟨path, hb, ?_⟩⟩
      rwa [takes_literal (by simp [htoken e, hs, hh])]
  unfold iterateMatchChildren
  rw [mem_append, ← child_hash, hwild _ (.inr rfl), ← child_star]
  cases key with
  | nil =>
    simp only [not_mem_nil, or_false]
    constructor
    · rintro ⟨path, hb, hm⟩
      exact ⟨.hash, path, hb, hm⟩
    rintro ⟨t, path, hb, hm⟩
    by_cases ht : t = .hash
    · exact ⟨path, ht ▸ hb, ht ▸ hm⟩
    · exact absurd hm (matches_nil_right ht path)
  | cons u newKey =>
    simp only [mem_append, hwild _ (.inl rfl), hlit]
    constructor
    · rintro (⟨path, hb, hm⟩ | ⟨path, hb, hm⟩ | ⟨-, hh, path, hb, hm⟩)
      · exact ⟨_, path, hb, hm⟩
      · exact ⟨_, path, hb, hm⟩
      · exact ⟨u, path, hb, (matches_cons hh _ _ _).2 ⟨.inr rfl, hm⟩⟩
    rintro ⟨t, path, hb, hm⟩
    by_cases hh : t = .hash
    · exact .inl ⟨path, hh ▸ hb, hh ▸ hm⟩
    by_cases hs : t = .star
    · exact .inr (.inl ⟨path, hs ▸ hb, hs ▸ hm⟩)
    · obtain ⟨ht, hp⟩ := (matches_cons hh _ _ _).1 hm
      obtain rfl := ht.resolve_left hs
      exact .inr (.inr ⟨hs, hh, path, hb, hp⟩)

theorem mem_iterateMatchString
    (hc : ∀ key v, v ∈ n.iterateMatchChildren key ↔ ∃ t path, n.BoundTo (t :: path) v ∧
      Matches (t :: path) key)
    (key : List Text) (v : Text) :
    v ∈ n.iterateMatchString n.iterateMatchChildren key ↔ ∃ path, n.BoundTo path v ∧ Matches path key := by
  rw [iterateMatchString, mem_append, hc]
  constructor
  · rintro (hv | ⟨t, path, h⟩)
    · split at hv
      · rename_i hk
        exact ⟨[], boundTo_nil.2 hv, List.isEmpty_iff.1 hk⟩
      · cases hv
    · exact ⟨t :: path, h⟩
  rintro ⟨path, hb, hm⟩
  cases path with
  | nil =>
    obtain rfl : key = [] := hm
    exact .inl (boundTo_nil.1 hb)
  | cons t path => exact .inr ⟨t, path, hb, hm⟩

/-- The loop of a hash, whose node has no hash below it. -/
theorem mem_iterateMatchHash (hn : n.child .hash = none)
    (hc : ∀ key v, v ∈ n.iterateMatchChildren key ↔ ∃ t path, n.BoundTo (t :: path) v ∧
      Matches (t :: path) key)
    (key : List Text) (v : Text) :
    v ∈ n.iterateMatchHash n.iterateMatchChildren key ↔ ∃ path, n.BoundTo path v ∧
      Matches (.hash :: path) key := by
  induction key with
  | nil =>
    rw [iterateMatchHash, ← boundTo_nil]
    constructor
    · intro hb
      exact ⟨[], hb, (matches_hash _ _).2 ⟨[], by simp, rfl⟩⟩
    rintro ⟨path, hb, hm⟩
    obtain ⟨rest, hr, hm⟩ := (matches_hash _ _).1 hm
    obtain rfl : rest = [] := by simpa using hr
    cases path with
    | nil => exact hb
    | cons t path =>
      -- a token other than a hash needs one of the key, and the node has no hash
      by_cases ht : t = .hash
      · obtain ⟨c, e, -⟩ := boundTo_cons.1 hb
        rw [ht, hn] at e
        cases e
      · exact absurd hm (matches_nil_right ht path)
  | cons u key ih =>
    rw [iterateMatchHash, mem_append, ih, hc]
    simp only [matches_hash, tails_cons, mem_cons, exists_eq_or_imp]
    constructor
    · rintro (⟨t, path, hb, hm⟩ | ⟨path, hb, hm⟩)
      · exact ⟨t :: path, hb, .inl hm⟩
      · exact ⟨path, hb, .inr hm⟩
    rintro ⟨path, hb, hm | hm⟩
    · cases path with
      | nil => cases hm
      | cons t path => exact .inl ⟨t, path, hb, hm⟩
    · exact .inr ⟨path, hb, hm⟩

/-- A search visits the bound nodes whose tokens match. -/
theorem mem_iterateMatch (h : All Wf pre n) (key : List Text) (v : Text) :
    v ∈ n.iterateMatch key ↔ ∃ path, n.BoundTo path v ∧ n.Takes path key := by
  -- the induction is over the tree: a child is a smaller one
  induction hs : sizeOf n using Nat.strongRecOn generalizing n pre key v with
  | ind s ih =>
    subst hs
    have hc := mem_iterateMatchChildren h fun t c key v e =>
      ih (sizeOf c) (sizeOf_child e) ((all_iff.1 h).2 t c e) key v rfl
    rw [iterateMatch_eq]
    by_cases hstar : n.token = .star
    · simp only [takes_wild (.inl hstar), hstar]
      cases key with
      | nil => simp [iterateMatchStar, matches_nil_right TopicExchange.star_ne_hash]
      | cons u key =>
        simp only [matches_cons TopicExchange.star_ne_hash, true_or, true_and]
        exact mem_iterateMatchString hc key v
    rw [if_neg hstar]
    by_cases hhash : n.token = .hash
    · simp only [takes_wild (.inr hhash), hhash]
      exact mem_iterateMatchHash ((all_iff.1 h).1.noHash hhash) hc key v
    · simp only [if_neg hhash, takes_literal (show ¬(n.token = .star ∨ n.token = .hash) by simp [hstar, hhash])]
      exact mem_iterateMatchString hc key v

/-! ## Nodes with something bound at or below them -/

variable {bKey path : List Text} {fullPattern : Text}

theorem find_append (path path' : List Text) : n.find (path ++ path') = (n.find path).bind (find path') := by
  induction path generalizing n with
  | nil => rfl
  | cons t path ih =>
    rw [cons_append, find, find]
    cases n.child t with
    | none => rfl
    | some c => exact ih

theorem find_isSome_of_boundAt (h : n.boundAt path ≠ []) : (n.find path).isSome := by
  unfold boundAt at h
  rw [get_eq_find] at h
  cases e : n.find path with
  | none => simp [e] at h
  | some m => rfl

/-- Below each node but the root, and those on the way to `bKey`, something is bound. -/
def LiveBut (bKey : List Text) (n : TopicKeyNode) : Prop :=
  ∀ path, path ≠ [] → (n.find path).isSome → path <+: bKey ∨ ∃ rest, n.boundAt (path ++ rest) ≠ []

def Live (n : TopicKeyNode) : Prop := n.LiveBut []

theorem Live.exists_rest (h : Live n) (hp : path ≠ []) (hf : (n.find path).isSome) :
    ∃ rest, n.boundAt (path ++ rest) ≠ [] :=
  (h path hp hf).resolve_left fun h => hp (prefix_nil.1 h)

theorem LiveBut.live (h : LiveBut bKey n) (hb : n.boundAt bKey ≠ []) : Live n := fun path hp hf =>
  .inr ((h path hp hf).elim (fun ⟨rest, e⟩ => ⟨rest, e ▸ hb⟩) id)

theorem find_add_isSome (h : ((add fullPattern bKey n).find path).isSome) : path <+: bKey ∨ (n.find path).isSome := by
  induction bKey generalizing n path with
  | nil =>
    refine .inr ?_
    rw [add] at h
    split at h
    · cases path <;> exact h
    · exact h
  | cons t bKey ih =>
    cases path with
    | nil => exact .inl nil_prefix
    | cons t' path =>
      rw [add, find, child_setChild] at h
      rw [find]
      split at h
      swap
      · exact .inr h
      rename_i e
      subst e
      cases hc : n.child t' with
      | some c => exact (ih h).imp (prefix_cons_inj t').2 fun hp => by simpa [hc] using hp
      | none =>
        -- the child is a new leaf, with no node below it
        refine .inl ((prefix_cons_inj t').2 ((ih h).elim id fun hp => ?_))
        cases path with
        | nil => exact nil_prefix
        | cons t path => simp [hc, find, child_leaf] at hp

theorem find_modify_isSome : ((n.modify f bKey).find path).isSome = (n.find path).isSome := by
  induction bKey generalizing n path with
  | nil => cases path <;> rfl
  | cons t bKey ih =>
    cases path with
    | nil => rfl
    | cons t' path =>
      rw [modify, find, find, child_setChild]
      split
      · rename_i e
        subst e
        cases n.child t' with
        | none => rfl
        | some c => exact ih
      · rfl

theorem exists_child (h : n.isDead = false) (hb : n.bindings = []) (hw : NoWild n) : ∃ t c, n.child t = some c := by
  by_contra hc
  have hnone (t : Text) : n.child t = none := eq_none_iff_forall_ne_some.2 fun c e => hc ⟨t, c, e⟩
  have htokens : n.childTokens = [] := by
    cases hl : n.childTokens with
    | nil => rfl
    | cons e l =>
      have hlook : n.childTokens.lookup e.1 = some e.2 := by rw [hl, lookup_cons, beq_self_eq_true]
      cases (hnone e.1).symm.trans (NoWild.lookup hw |>.1 hlook).2.2
  simp [isDead, htokens, hb, show n.starChild = none from hnone .star, show n.hashChild = none from hnone .hash] at h

/-- A node that is not dead has something bound at it or below it. -/
theorem All.exists_rest (h : All Wf pre n) (hl : Live n) (hd : ¬n.isDead = true) :
    ∃ rest, n.boundAt rest ≠ [] := by
  by_cases hb : n.bindings = []
  swap
  · exact ⟨[], hb⟩
  obtain ⟨t, c, hc⟩ := exists_child (Bool.eq_false_iff.2 hd) hb (all_iff.1 h).1.noWild
  obtain ⟨rest, hr⟩ := hl.exists_rest (cons_ne_nil t []) (by simp [find, hc])
  exact ⟨_, hr⟩

theorem live_remove (h : All Wf pre n) (hl : LiveBut bKey n) : Live (n.remove bKey).2 := by
  induction bKey generalizing pre n with
  | nil => exact hl
  | cons t bKey ih =>
    rw [remove_cons]
    rintro (_ | ⟨t', path⟩) hp hf
    · exact absurd rfl hp
    refine .inr ?_
    -- away from the way to `bKey` nothing changes
    have hother : (n.find (t' :: path)).isSome → (t' = t → n.child t = none) →
        ∃ rest, n.boundAt (t' :: path ++ rest) ≠ [] := fun hf ht => by
      refine (hl _ hp hf).resolve_left fun hpre => ?_
      obtain ⟨rfl, -⟩ := cons_prefix_cons.1 hpre
      simp [find, ht rfl] at hf
    cases e : n.child t with
    | none =>
      simp only [e] at hf
      exact hother hf fun _ => e
    | some c =>
      simp only [e, find, cons_append, boundAt_cons, child_setChild] at hf ⊢
      by_cases ht : t' = t
      swap
      · simp only [if_neg ht] at hf ⊢
        simpa [boundAt_cons] using hother hf fun h => absurd h ht
      simp only [ht, if_true] at hf ⊢
      have hc := (all_iff.1 h).2 t c e
      have hlive : Live (c.remove bKey).2 := ih hc fun path hp hf => by
        have := hl (t :: path) (by simp) (by rw [find, e]; exact hf)
        simpa [boundAt_cons, e] using this
      split at hf
      · cases hf
      rename_i hd
      simp only [if_neg hd]
      by_cases hpath : path = []
      · subst hpath
        exact (all_remove bKey hc).exists_rest hlive hd
      · exact hlive.exists_rest hpath hf

end TopicKeyNode

namespace TopicExchange

open TopicKeyNode
open Text (tokens tokens_inj)

/-! ## Whole runs -/

/-- The tree holds the bindings. -/
structure Holds (bound : List (String × Text)) (tree : TopicKeyNode) : Prop where
  wf : All Wf [] tree
  nodup : ∀ path, (tree.boundAt path).Nodup
  boundAt : ∀ queue path, queue ∈ tree.boundAt path ↔ ∃ p, (queue, p) ∈ bound ∧ tokens p = path

variable {bound : List (String × Text)} {tree : TopicKeyNode}

theorem holds_empty : Holds [] {} where
  wf := wf_empty
  nodup path := by rw [boundAt_leaf]; exact nodup_nil
  boundAt queue path := by simp [boundAt_leaf]

theorem Holds.mem_boundAt (h : Holds bound tree) (queue : String) (p : Text) :
    queue ∈ tree.boundAt (tokens p) ↔ (queue, p) ∈ bound := by
  simp [h.boundAt, tokens_inj]

theorem Holds.bind (h : Holds bound tree) (queue : String) (pattern : Text) :
    Holds (step bound (.bind queue pattern)) (TopicExchange.bind tree queue pattern).2 := by
  set p := normalize pattern with hp
  have hadd := all_add (tokens p) h.wf (squeezed_normalize pattern) rfl
  have hget : ((tree.add p (tokens p)).get (tokens p)).getD [] = tree.boundAt (tokens p) :=
    boundAt_add (tokens p) (tokens p)
  unfold TopicExchange.bind
  simp only [← hp, hget, contains_iff_mem, h.mem_boundAt]
  split
  · rename_i hq
    refine ⟨hadd, fun path => by rw [boundAt_add]; exact h.nodup path, fun q path => ?_⟩
    rw [boundAt_add, h.boundAt, step, ← hp]
    have : ∀ p', (q, p') ∈ (queue, p) :: bound ↔ (q, p') ∈ bound := fun p' => by
      rw [mem_cons, or_iff_right_of_imp fun e => e ▸ hq]
    simp [this]
  obtain ⟨m, hm, hpat⟩ := find_add (tokens p) h.wf rfl
  have hb := boundAt_modify (f := (· ++ [queue])) (isSome_iff_exists.2 ⟨m, hm⟩)
  refine ⟨all_modify (tokens p) hadd fun m' hm' _ => ?_, fun path => ?_, fun q path => ?_⟩
  · cases hm.symm.trans hm'
    exact hpat
  · rw [hb, boundAt_add]
    split
    · rename_i e
      rw [e]
      refine (h.nodup _).append (nodup_singleton _) (disjoint_singleton.2 ?_)
      rwa [h.mem_boundAt]
    · exact h.nodup path
  rw [hb, boundAt_add, step]
  simp only [mem_cons, Prod.mk.injEq]
  split
  · rename_i e
    rw [e, mem_append, mem_singleton, h.mem_boundAt]
    constructor
    · rintro (hq | rfl)
      · exact ⟨p, .inr hq, rfl⟩
      · exact ⟨p, .inl ⟨rfl, rfl⟩, rfl⟩
    · rintro ⟨p', ⟨rfl, -⟩ | hq, ht⟩
      · exact .inr rfl
      · exact .inl (tokens_inj.1 ht ▸ hq)
  rename_i e
  rw [h.boundAt]
  refine exists_congr fun p' => and_congr_left fun ht => (or_iff_right ?_).symm
  rintro ⟨-, rfl⟩
  exact e ht.symm

theorem Holds.unbind (h : Holds bound tree) (queue : String) (pattern : Text) :
    Holds (step bound (.unbind queue pattern)) (TopicExchange.unbind tree queue pattern).2 := by
  set p := normalize pattern with hp
  -- a queue that is not bound: nothing is filtered
  have hnot : queue ∉ tree.boundAt (tokens p) → step bound (.unbind queue pattern) = bound := fun hq => by
    rw [step, filter_eq_self]
    intro b hb
    simp only [decide_eq_true_eq]
    rintro rfl
    exact hq ((h.mem_boundAt queue p).2 hb)
  unfold TopicExchange.unbind
  simp only [← hp]
  cases hg : tree.get (tokens p) with
  | none =>
    rw [hnot (by simp [TopicKeyNode.boundAt, hg])]
    exact h
  | some qv =>
    have hqv : tree.boundAt (tokens p) = qv := by rw [TopicKeyNode.boundAt, hg]; rfl
    have hnodup : qv.Nodup := hqv ▸ h.nodup (tokens p)
    simp only [contains_iff_mem]
    split
    swap
    · rename_i hq
      rw [hnot (hqv ▸ hq)]
      exact h
    rename_i hq
    obtain ⟨m, hm, hb⟩ : ∃ m, tree.find (tokens p) = some m ∧ m.bindings = qv := by
      rw [get_eq_find] at hg
      exact map_eq_some_iff.1 hg
    have hbound := boundAt_modify (f := fun _ => qv.erase queue) (isSome_iff_exists.2 ⟨m, hm⟩)
    have hmod : Holds (step bound (.unbind queue pattern)) (tree.modify (fun _ => qv.erase queue) (tokens p)) := by
      refine ⟨all_modify (tokens p) h.wf fun m' hm' _ => ?_, fun path => ?_, fun q path => ?_⟩
      · cases hm.symm.trans hm'
        exact (h.wf _ m hm).bound (by rw [hb]; exact ne_nil_of_mem hq)
      · rw [hbound]
        split
        · exact hnodup.erase queue
        · exact h.nodup path
      rw [hbound, step]
      simp only [mem_filter, decide_eq_true_eq, ne_eq, Prod.mk.injEq]
      split
      · rename_i e
        rw [hnodup.mem_erase_iff, ← hqv, h.mem_boundAt, e]
        simp only [tokens_inj]
        constructor
        · rintro ⟨hne, hq⟩
          exact ⟨p, ⟨hq, fun e => hne e.1⟩, rfl⟩
        · rintro ⟨p', ⟨hq, hne⟩, rfl⟩
          exact ⟨fun e => hne ⟨e, rfl⟩, hq⟩
      rename_i e
      rw [h.boundAt]
      refine exists_congr fun p' => and_congr_left fun ht => ⟨fun hq => ⟨hq, ?_⟩, fun hq => hq.1⟩
      rintro ⟨-, rfl⟩
      exact e ht.symm
    split
    · exact ⟨all_remove _ hmod.wf, fun path => by rw [boundAt_remove]; exact hmod.nodup path,
        fun q path => by rw [boundAt_remove]; exact hmod.boundAt q path⟩
    · exact hmod

/-- Every run of binds and unbinds keeps the tree. -/
theorem Holds.run (h : Holds bound tree) (ops : List Op) : Holds (ops.foldl step bound) (ops.foldl perform tree) := by
  induction ops generalizing bound tree with
  | nil => exact h
  | cons op ops ih =>
    cases op with
    | bind queue pattern => exact ih (h.bind queue pattern)
    | unbind queue pattern => exact ih (h.unbind queue pattern)

theorem Holds.boundTo (h : Holds bound tree) (path : List Text) (p : Text) :
    tree.BoundTo path p ↔ (∃ queue, (queue, p) ∈ bound) ∧ path = tokens p := by
  have hat : ∀ m, tree.find path = some m → tree.boundAt path = m.bindings := fun m hm => by
    rw [TopicKeyNode.boundAt, get_eq_find, hm]
    rfl
  constructor
  · rintro ⟨m, hm, hne, rfl⟩
    have hpath : tokens m.routePattern = path := (h.wf path m hm).bound hne
    obtain ⟨queue, hq⟩ := exists_mem_of_ne_nil _ hne
    rw [← hat m hm, ← hpath, h.mem_boundAt] at hq
    exact ⟨⟨queue, hq⟩, hpath.symm⟩
  rintro ⟨⟨queue, hq⟩, rfl⟩
  rw [← h.mem_boundAt] at hq
  cases hm : tree.find (tokens p) with
  | none => simp [TopicKeyNode.boundAt, get_eq_find, hm] at hq
  | some m =>
    rw [hat m hm] at hq
    have hne := ne_nil_of_mem hq
    exact ⟨m, hm, hne, tokens_inj.1 ((h.wf _ m hm).bound hne)⟩

theorem Holds.mem_visited (h : Holds bound tree) (key pattern : Text) :
    pattern ∈ visited tree key ↔ (∃ queue, (queue, pattern) ∈ bound) ∧
      Matches (tokens pattern) (tokens key) := by
  have hroot : ¬(tree.token = .star ∨ tree.token = .hash) := by
    rw [(all_iff.1 h.wf).1.token]
    decide
  simp only [visited, mem_iterateMatch h.wf, takes_literal hroot, h.boundTo]
  constructor
  · rintro ⟨path, ⟨hq, rfl⟩, hm⟩
    exact ⟨hq, hm⟩
  · rintro ⟨hq, hm⟩
    exact ⟨_, ⟨hq, rfl⟩, hm⟩

/-- **A search visits exactly the bound patterns that match**, after any run of
binds and unbinds, and a pattern normalised matches what it matched before. -/
theorem visited_exact (ops : List Op) (key : Text) : (∀ pattern, pattern ∈ visited (ops.foldl perform {}) key ↔
      (∃ queue, (queue, pattern) ∈ Spec.Topic.bound ops) ∧ Matches (tokens pattern) (tokens key)) ∧
    ∀ pattern, Matches (tokens (normalize pattern)) (tokens key) ↔ Matches (tokens pattern) (tokens key) :=
  ⟨fun pattern => (holds_empty.run ops).mem_visited key pattern, fun pattern => matches_normalize pattern _⟩

/-! ## No dead branches -/

theorem live_empty : Live {} := by
  rintro (_ | ⟨t, path⟩) hp hf
  · exact absurd rfl hp
  · simp [find, child_leaf] at hf

theorem live_bind (h : Live tree) (hw : All Wf [] tree) (queue : String) (pattern : Text) :
    Live (TopicExchange.bind tree queue pattern).2 := by
  set p := normalize pattern with hp
  have hadd : LiveBut (tokens p) (tree.add p (tokens p)) := fun path hne hf => by
    refine (find_add_isSome hf).imp_right fun hf => ?_
    simpa only [boundAt_add] using h.exists_rest hne hf
  unfold TopicExchange.bind
  simp only [← hp]
  split
  · rename_i hq
    exact hadd.live (ne_nil_of_mem (contains_iff_mem.1 hq))
  obtain ⟨m, hm, -⟩ := find_add (tokens p) hw rfl
  have hb := boundAt_modify (f := (· ++ [queue])) (isSome_iff_exists.2 ⟨m, hm⟩)
  refine (show LiveBut (tokens p) _ from fun path hne hf => ?_).live (by simp [hb])
  refine (hadd path hne (find_modify_isSome ▸ hf)).imp_right fun ⟨rest, hr⟩ => ⟨rest, ?_⟩
  rw [hb]
  split <;> simp [hr]

theorem live_unbind (h : Live tree) (hw : All Wf [] tree) (queue : String) (pattern : Text) :
    Live (TopicExchange.unbind tree queue pattern).2 := by
  set p := normalize pattern with hp
  unfold TopicExchange.unbind
  simp only [← hp]
  split
  · exact h
  rename_i qv hg
  split
  swap
  · exact h
  rename_i hq
  rw [get_eq_find] at hg
  obtain ⟨m, hm, rfl⟩ := map_eq_some_iff.1 hg
  have hb := boundAt_modify (f := fun _ => m.bindings.erase queue) (isSome_iff_exists.2 ⟨m, hm⟩)
  have hmod : LiveBut (tokens p) (tree.modify (fun _ => m.bindings.erase queue) (tokens p)) := fun path hne hf => by
    obtain ⟨rest, hr⟩ := h.exists_rest hne (find_modify_isSome ▸ hf)
    by_cases e : path ++ rest = tokens p
    · exact .inl ⟨rest, e⟩
    · exact .inr ⟨rest, by rwa [hb, if_neg e]⟩
  split
  · refine live_remove (all_modify (tokens p) hw fun m' hm' _ => ?_) hmod
    cases hm.symm.trans hm'
    exact (hw _ m hm).bound (ne_nil_of_mem (contains_iff_mem.1 hq))
  · rename_i he
    exact hmod.live (by rw [hb]; simpa using he)

theorem Holds.live (h : Holds bound tree) (hl : Live tree) (acts : List Op) : Live (acts.foldl perform tree) := by
  induction acts generalizing bound tree with
  | nil => exact hl
  | cons act acts ih =>
    cases act with
    | bind queue pattern => exact ih (h.bind queue pattern) (live_bind hl h.wf queue pattern)
    | unbind queue pattern => exact ih (h.unbind queue pattern) (live_unbind hl h.wf queue pattern)

/-- **The tree has no dead branches**: after any run of binds and unbinds `get` finds a node for the tokens that begin
a pattern that is bound, and besides the root there are no other nodes. -/
theorem nodes_are_of_bound_patterns (ops : List Op) (path : List Text) : ((ops.foldl perform {}).get path).isSome ↔
    path = [] ∨ ∃ e ∈ Spec.Topic.bound ops, path <+: tokens e.2 := by
  have hholds := holds_empty.run ops
  rw [get_eq_find, isSome_map]
  constructor
  · intro hf
    by_cases hp : path = []
    · exact .inl hp
    obtain ⟨rest, hr⟩ := (holds_empty.live live_empty ops).exists_rest hp hf
    obtain ⟨queue, hq⟩ := exists_mem_of_ne_nil _ hr
    obtain ⟨p, hp, htokens⟩ := (hholds.boundAt queue _).1 hq
    exact .inr ⟨_, hp, rest, htokens.symm⟩
  · rintro (rfl | ⟨⟨queue, p⟩, hp, rest, htokens⟩)
    · rfl
    have hf := find_isSome_of_boundAt (ne_nil_of_mem ((hholds.mem_boundAt queue p).2 hp))
    rw [← htokens, find_append] at hf
    exact isSome_of_isSome_bind hf

end TopicExchange

end QB.Impl
