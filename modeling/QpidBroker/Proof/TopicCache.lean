import QpidBroker.Proof.TopicExchange
import QpidBroker.Spec.TopicCache

/-!
# The cache of a topic exchange is coherent

What is put into the cache is what the tree holds at that time, as the tree does not change while a
thread is between its search and the update. A change that has returned has cleared the cache since,
so that nothing in it is older.
-/

namespace QB.Impl.TopicExchange

open Spec.Topic
open Text (tokens)

variable {bound : List (String × Text)} {tree : TopicKeyNode}

theorem Holds.findBindings_exact (h : Holds bound tree) (routingKey : Text) :
    Spec.TopicCache.Exact bound routingKey (findBindings tree routingKey) := by
  obtain ⟨hnodup, hmem⟩ := Assoc.foldl_insert
    ((visited tree routingKey).flatMap fun p => tree.boundAt (tokens p)) .nil
  refine ⟨hnodup, fun queue => (hmem queue).trans ?_⟩
  simp only [List.not_mem_nil, false_or, List.mem_flatMap, h.mem_visited]
  constructor
  · rintro ⟨p, ⟨-, hm⟩, hq⟩
    exact ⟨p, (h.mem_boundAt queue p).1 hq, hm⟩
  · rintro ⟨p, hp, hm⟩
    exact ⟨p, ⟨⟨queue, hp⟩, hm⟩, (h.mem_boundAt queue p).2 hp⟩

end QB.Impl.TopicExchange

namespace QB.Spec.TopicCache

open Impl TopicExchange Topic List

/-- What is found after some number of the changes. -/
def Seen (changes : List Topic.Op) (routingKey : Text) (since upto : Nat) (b : List String) : Prop :=
  ∃ n, since ≤ n ∧ n ≤ upto ∧ upto ≤ changes.length ∧
    b = findBindings ((changes.take n).foldl perform {}) routingKey

variable {changes : List Topic.Op} {routingKey : Text} {since upto : Nat} {b : List String}

theorem Seen.now (h : since ≤ changes.length) :
    Seen changes routingKey since changes.length (findBindings (changes.foldl perform {}) routingKey) :=
  ⟨_, h, le_rfl, le_rfl, by rw [take_length]⟩

theorem Seen.append (h : Seen changes routingKey since upto b) (op : Topic.Op) :
    Seen (changes ++ [op]) routingKey since upto b := by
  obtain ⟨n, hsince, hn, hupto, rfl⟩ := h
  refine ⟨n, hsince, hn, by simp; omega, ?_⟩
  rw [take_append_of_le_length (by omega)]

/-- What is known of a thread. -/
def Phase.Sound (changes : List Topic.Op) : Phase → Prop
  | .idle => True
  | .changed n => n ≤ changes.length
  | .missed _ since => since ≤ changes.length
  | .found routingKey since b => since ≤ changes.length ∧ b = findBindings (changes.foldl perform {}) routingKey

structure Coherent (s : State) : Prop where
  tree : s.bindingTree = s.changes.foldl perform {}
  returned : s.returned ≤ s.changes.length
  threads : ∀ p ∈ s.threads, p.Sound s.changes
  cache : ∀ routingKey b, s.bindingCache.lookup routingKey = some b →
    Seen s.changes routingKey s.returned s.changes.length b
  routed : ∀ r ∈ s.routed, Seen s.changes r.routingKey r.since r.upto r.queues

namespace Coherent

variable {s t : State} {i : Nat}

theorem thread (h : Coherent s) {p : Phase} (hi : s.threads[i]? = some p) : p.Sound s.changes :=
  h.threads p (mem_of_getElem? hi)

theorem set (h : Coherent s) {p : Phase} (hp : p.Sound s.changes) : ∀ q ∈ s.threads.set i p, q.Sound s.changes := by
  intro q hq
  rcases mem_or_eq_of_mem_set hq with hq | rfl
  · exact h.threads q hq
  · exact hp

theorem change (h : Coherent s) {op : Topic.Op} (hs : s.step (.change i op) = some t) : Coherent t := by
  simp only [State.step, Option.ite_none_right_eq_some, Option.some.injEq, all_eq_true] at hs
  obtain ⟨⟨-, hreads⟩, rfl⟩ := hs
  have hle : s.changes.length ≤ (s.changes ++ [op]).length := by simp
  refine ⟨by simp [h.tree], h.returned.trans hle, fun p hp => ?_, fun k b hb => ?_, fun r hr => ?_⟩
  · rcases mem_or_eq_of_mem_set hp with hp | rfl
    · have hsound := h.threads p hp
      have hread := hreads p hp
      cases p with
      | idle => trivial
      | changed n => exact hsound.trans hle
      | missed _ since => exact hsound.trans hle
      | found => cases hread
    · simp [Phase.Sound]
  · obtain ⟨n, hsince, hn, hupto, hb⟩ := (h.cache k b hb).append op
    exact ⟨n, hsince, hn.trans hle, le_rfl, hb⟩
  · exact (h.routed r hr).append op

theorem step {a : Act} (h : Coherent s) (hs : s.step a = some t) : Coherent t := by
  cases a with
  | change i op => exact h.change hs
  | clearCache i =>
    simp only [State.step] at hs
    split at hs <;> cases hs
    rename_i n hi
    have hn := h.thread hi
    exact ⟨h.tree, max_le h.returned hn, h.set trivial, by simp, h.routed⟩
  | lookup i routingKey =>
    simp only [State.step] at hs
    split at hs <;> [skip; cases hs]
    split at hs <;> cases hs
    · rename_i b hb
      exact ⟨h.tree, h.returned, h.threads, h.cache, forall_mem_cons.2 ⟨h.cache _ b hb, h.routed⟩⟩
    · exact ⟨h.tree, h.returned, h.set h.returned, h.cache, h.routed⟩
  | search i =>
    simp only [State.step] at hs
    split at hs <;> cases hs
    rename_i routingKey since hi
    exact ⟨h.tree, h.returned, h.set ⟨h.thread hi, by rw [h.tree]⟩, h.cache, h.routed⟩
  | update i =>
    simp only [State.step] at hs
    split at hs <;> cases hs
    rename_i routingKey since b hi
    obtain ⟨hsince, rfl⟩ := h.thread hi
    refine ⟨h.tree, h.returned, h.set trivial, fun k b hb => ?_, forall_mem_cons.2 ⟨.now hsince, h.routed⟩⟩
    by_cases hk : k = routingKey
    · subst hk
      rw [BindingCache.update, Assoc.lookup_cons_self] at hb
      cases hb
      exact .now h.returned
    · rw [BindingCache.update, Assoc.lookup_cons_ne hk, Assoc.lookup_filter_ne, if_neg hk] at hb
      exact h.cache k b hb

end Coherent

/-- **The cache is coherent.** In every interleaving, what is routed goes to the queues that were bound
with a pattern that matches, each once, after some number of the changes: at least those that had
returned when the route began, and at most those that had been made when it had its queues. -/
theorem routed_coherent {n : Nat} {acts : List Act} {s : State}
    (h : Run State.step (fun _ _ => True) { threads := List.replicate n .idle } acts s) :
    ∀ r ∈ s.routed, ∃ k, r.since ≤ k ∧ k ≤ r.upto ∧ r.upto ≤ s.changes.length ∧
      Exact (bound (s.changes.take k)) r.routingKey r.queues := by
  have hc : Coherent s := h.keep (I := Coherent) (fun hi _ hs => hi.step hs)
    ⟨rfl, le_rfl, fun p hp => by rw [eq_of_mem_replicate hp]; trivial, by simp, by simp⟩
  intro r hr
  obtain ⟨k, hsince, hk, hupto, hq⟩ := hc.routed r hr
  exact ⟨k, hsince, hk, hupto, hq ▸ (holds_empty.run _).findBindings_exact _⟩

/-- A queue is unbound while a message is routed from the cache, and the next one goes to none. -/
theorem routed_coherent_unbind : ∃ s, Run State.step (fun _ _ => True) { threads := List.replicate 2 .idle }
      [.change 0 (.bind "q" ['*']), .clearCache 0, .lookup 1 ['a'], .search 1, .update 1, .change 0 (.unbind "q" ['*']),
        .lookup 1 ['a'], .clearCache 0, .lookup 1 ['a'], .search 1, .update 1] s ∧
      s.routed.map (fun r => (r.queues, r.since, r.upto)) = [([], 2, 2), (["q"], 1, 2), (["q"], 1, 1)] ∧
      ∀ r ∈ s.routed, ∃ k, r.since ≤ k ∧ k ≤ r.upto ∧ r.upto ≤ s.changes.length ∧
        Exact (bound (s.changes.take k)) r.routingKey r.queues := by
  exact exists_run (by decide +kernel) fun s hrun hr => ⟨hrun, hr, routed_coherent hrun⟩

end QB.Spec.TopicCache
