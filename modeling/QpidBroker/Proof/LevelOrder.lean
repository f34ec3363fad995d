import QpidBroker.Proof.PriorityServed

/-!
# The order in which levels are visited

Downwards from the level the search starts at, and then down from the highest
(`cycle`), whether or not the queue is a fairshare queue (`search_eq`). With a new
context the search finds the first available message of the first level
that has one (`scan_fresh`).
-/

namespace QB.Impl

open Record Serial List

namespace PriorityQueue

open IndexedDeque

/-! ## Levels, downwards and round -/

/-- The levels from `n` down to the one above `m`. -/
def downTo (n m : Nat) : List Nat := ((List.range (n + 1)).drop (m + 1)).reverse

/-- All levels, downwards and round, from `s`. -/
def cycle (levels s : Nat) : List Nat := (List.range (s + 1)).reverse ++ downTo (levels - 1) s

/-- The level below, or the highest. -/
def below (levels p : Nat) : Nat := if p ≠ 0 then p - 1 else levels - 1

/-- The levels visited from `p` on, until the search is back at `s`. -/
def order (levels s : Nat) : Nat → Nat → List Nat
  | 0, p => [p]
  | fuel + 1, p => p :: if below levels p = s then [] else order levels s fuel (below levels p)

variable {levels p s : Nat}

theorem below_lt (h : p < levels) : below levels p < levels := by
  unfold below
  split <;> omega

theorem downTo_succ {n m : Nat} (h : m ≤ n) : downTo (n + 1) m = (n + 1) :: downTo n m := by
  rw [downTo, range_succ, drop_append_of_le_length (by simp; omega)]
  simp [downTo]

theorem downTo_self (n : Nat) : downTo n n = [] := by simp [downTo]

theorem order_above (fuel n : Nat) (hf : n ≤ fuel) : order levels s fuel (s + n + 1) = downTo (s + n + 1) s := by
  induction n generalizing fuel with
  | zero =>
    rw [downTo_succ (by omega), downTo_self]
    cases fuel <;> simp [order, below]
  | succ n ih =>
    obtain ⟨fuel, rfl⟩ : ∃ k, fuel = k + 1 := ⟨fuel - 1, by omega⟩
    rw [order, downTo_succ (by omega)]
    have hb : below levels (s + (n + 1) + 1) = s + n + 1 := by simp [below]; omega
    rw [hb, if_neg (by omega), ih fuel (by omega)]
    rfl

theorem order_below (hs : s < levels) (fuel p : Nat) (hp : p ≤ s) (hf : p + levels ≤ fuel + s + 1) :
    order levels s fuel p = (List.range (p + 1)).reverse ++ downTo (levels - 1) s := by
  induction p generalizing fuel with
  | zero =>
    by_cases hl : levels = s + 1
    · subst hl
      cases fuel <;> simp [order, below, downTo_self]
    obtain ⟨n, rfl⟩ : ∃ n, levels = s + n + 2 := ⟨levels - s - 2, by omega⟩
    obtain ⟨fuel, rfl⟩ : ∃ k, fuel = k + 1 := ⟨fuel - 1, by omega⟩
    have hb : below (s + n + 2) 0 = s + n + 1 := by simp [below]
    rw [order, hb, if_neg (by omega), order_above fuel n (by omega)]
    rfl
  | succ p ih =>
    obtain ⟨fuel, rfl⟩ : ∃ k, fuel = k + 1 := ⟨fuel - 1, by omega⟩
    have hb : below levels (p + 1) = p := by simp [below]
    rw [order, hb, if_neg (by omega), ih fuel (by omega) (by omega), range_succ (n := p + 1)]
    simp

theorem order_eq_cycle (hs : s < levels) : order levels s levels s = cycle levels s :=
  order_below hs levels s le_rfl (by omega)

theorem cycle_cons (levels s : Nat) : ∃ ps, cycle levels s = s :: ps := by
  rw [cycle, range_succ]
  simp

theorem mem_cycle (hs : s < levels) : p ∈ cycle levels s ↔ p < levels := by
  simp only [cycle, downTo, mem_append, mem_reverse, mem_range, mem_drop_iff_getElem]
  constructor
  · rintro (h | ⟨i, hi, rfl⟩)
    · omega
    · simp only [length_range] at hi
      simp only [getElem_range]
      omega
  intro h
  by_cases hp : p ≤ s
  · exact .inl (by omega)
  · exact .inr ⟨p - (s + 1), by simp; omega, by simp; omega⟩

theorem nodup_cycle : (cycle levels s).Nodup := by
  refine nodup_append.2 ⟨?_, ?_, ?_⟩
  · exact nodup_reverse.2 nodup_range
  · exact nodup_reverse.2 (nodup_range.sublist (drop_sublist _ _))
  intro a ha b hb
  simp only [mem_reverse, mem_range] at ha
  simp only [downTo, mem_reverse, mem_drop_iff_getElem, getElem_range] at hb
  omega

/-- Started below a level, the search comes to that level last. -/
theorem cycle_below (hp : p < levels) :
    ∃ ps, cycle levels (below levels p) = ps ++ [p] ∧ ∀ p', p' ∈ ps ↔ p' < levels ∧ p' ≠ p := by
  obtain ⟨ps, hps⟩ : ∃ ps, cycle levels (below levels p) = ps ++ [p] := by
    cases p with
    | zero =>
      simp only [below, ne_eq, not_true_eq_false, if_false, cycle, downTo_self]
      rw [range_succ_eq_map]
      simp
    | succ p =>
      have hb : below levels (p + 1) = p := by simp [below]
      rw [hb, cycle]
      refine ⟨(List.range (p + 1)).reverse ++ downTo (levels - 1) (p + 1), ?_⟩
      have hd : (List.range (levels - 1 + 1)).drop (p + 1) =
          (p + 1) :: (List.range (levels - 1 + 1)).drop (p + 1 + 1) := by
        rw [drop_eq_getElem_cons (by simp; omega)]
        simp
      simp only [downTo]
      rw [hd]
      simp
  refine ⟨ps, hps, fun p' => ?_⟩
  have hm := mem_cycle (p := p') (below_lt hp)
  have hn : (cycle levels (below levels p)).Nodup := nodup_cycle
  rw [hps] at hm hn
  rw [← hm]
  have hnp : p ∉ ps := fun h => (nodup_append.1 hn).2.2 p h p (by simp) rfl
  simp only [mem_append, mem_singleton]
  constructor
  · intro h
    exact ⟨.inl h, fun e => hnp (e ▸ h)⟩
  · rintro ⟨h | h, hne⟩
    · exact h
    · exact absurd h hne

/-! ## The scan of a list of levels -/

variable {q : PriorityQueue} {ctxt : List QueueCursor}

theorem scan_fairshare (fs : Option Fairshare) (xs : List (List QueueCursor)) (ps : List Nat)
    (ctxt : List QueueCursor) :
    ({ q with contexts := xs, fairshare := fs } : PriorityQueue).scan ps ctxt = q.scan ps ctxt := by
  induction ps generalizing ctxt with
  | nil => rfl
  | cons p ps ih =>
    simp only [scan, ih]
    rfl

theorem nextAt_getElem? {p' : Nat} (h : p ≠ p') : (q.nextAt ctxt p).2[p']? = ctxt[p']? := by
  unfold nextAt
  split
  · exact getElem?_set_ne h
  · rfl

theorem scan_found {ps : List Nat} {x : MessageHolder} (h : (q.scan ps ctxt).1 = some x) :
    ∃ ps₁ p ps₂ ctxt1, ps = ps₁ ++ p :: ps₂ ∧ (∀ p' ∉ ps₁, ctxt1[p']? = ctxt[p']?) ∧
      q.nextAt ctxt1 p = (some x, (q.scan ps ctxt).2) := by
  induction ps generalizing ctxt with
  | nil => simp [scan] at h
  | cons p ps ih =>
    rw [scan] at h ⊢
    rcases h1 : q.nextAt ctxt p with ⟨_ | y, ctxt1⟩
    · simp only [h1] at h ⊢
      obtain ⟨ps₁, p1, ps₂, ctxt2, rfl, hc, hn⟩ := ih h
      refine ⟨p :: ps₁, p1, ps₂, ctxt2, rfl, fun p' hp' => ?_, hn⟩
      rw [mem_cons, not_or] at hp'
      rw [hc p' hp'.2, show ctxt1 = (q.nextAt ctxt p).2 by rw [h1], nextAt_getElem? (Ne.symm hp'.1)]
    · simp only [h1] at h ⊢
      obtain rfl : y = x := by simpa using h
      exact ⟨[], p, ps, ctxt, rfl, fun _ _ => rfl, h1⟩

/-- The first message of a level, to a cursor that has not moved. -/
def firstAt (q : PriorityQueue) (p : Nat) : Option MessageHolder :=
  (q.messages[p]?).bind fun d => (d.next q.bodies { type := .consumer }).1.bind (d.messages[·]?)

theorem nextAt_fresh (h : ctxt[p]? = some { type := .consumer }) : (q.nextAt ctxt p).1 = q.firstAt p := by
  unfold nextAt firstAt
  cases q.messages[p]? with
  | none => rfl
  | some d => simp [h]

theorem scan_fresh {ps : List Nat} (hps : ps.Nodup)
    (h : ∀ p ∈ ps, ctxt[p]? = some { type := .consumer }) : (q.scan ps ctxt).1 = ps.findSome? q.firstAt := by
  induction ps generalizing ctxt with
  | nil => rfl
  | cons p ps ih =>
    obtain ⟨hp, hps⟩ := nodup_cons.1 hps
    have h1 := nextAt_fresh (q := q) (h p (by simp))
    rw [scan, findSome?_cons, ← h1]
    rcases h2 : q.nextAt ctxt p with ⟨_ | x, ctxt1⟩
    · refine ih hps fun p' hp' => ?_
      rw [show ctxt1 = (q.nextAt ctxt p).2 by rw [h2], nextAt_getElem? (by rintro rfl; exact hp hp')]
      exact h p' (mem_cons_of_mem _ hp')
    · rfl

/-! ## Fairshare -/

theorem nextLoop_fairshare {f : Fairshare} (hq : q.fairshare = some f) (fuel : Nat) {p : Priority}
    (hp : f.priority = p.current) (hl : f.priority < q.levels) (ctxt : List QueueCursor) :
    ∃ f', nextLoop fuel q p ctxt = ((q.scan (order q.levels p.start fuel p.current) ctxt).1,
          (q.scan (order q.levels p.start fuel p.current) ctxt).2, { q with fairshare := some f' }) ∧
      f'.priority < q.levels ∧
      ∀ x, (q.scan (order q.levels p.start fuel p.current) ctxt).1 = some x →
        ∃ ps₁ ps₂, order q.levels p.start fuel p.current = ps₁ ++ f'.priority :: ps₂ ∧
          (q.scan ps₁ ctxt).1 = none ∧ (q.scan (ps₁ ++ [f'.priority]) ctxt).1 = some x := by
  obtain ⟨start, current⟩ := p
  obtain rfl : f.priority = current := hp
  have hb := below_lt hl
  have hqf : { q with fairshare := some f } = q := by rw [← hq]
  induction fuel generalizing q f ctxt with
  | zero =>
    rw [nextLoop]
    rcases h1 : q.nextAt ctxt f.priority with ⟨_ | y, ctxt1⟩
    · refine ⟨⟨f.limits, below q.levels f.priority, 1⟩, ?_, hb, fun x hx => ?_⟩
      · simp [nextLevel, hq, Fairshare.nextLevel, order, scan, h1, below]
      · simp [order, scan, h1] at hx
    · refine ⟨f, by simp [order, scan, h1, hqf], hl, fun x hx => ⟨[], [], rfl, rfl, hx⟩⟩
  | succ fuel ih =>
    rw [nextLoop, order]
    simp only [scan]
    rcases h1 : q.nextAt ctxt f.priority with ⟨_ | y, ctxt1⟩
    swap
    · refine ⟨f, by simp [hqf], hl, fun x hx => ⟨[], _, rfl, rfl, ?_⟩⟩
      simpa [scan, h1] using hx
    have hn : q.nextLevel ⟨start, f.priority⟩ =
        (if below q.levels f.priority = start then none else some ⟨start, below q.levels f.priority⟩,
          { q with fairshare := some ⟨f.limits, below q.levels f.priority, 1⟩ }) := by
      simp [nextLevel, hq, Fairshare.nextLevel, below]
    simp only [hn]
    by_cases hs : below q.levels f.priority = start
    · simp only [if_pos hs, scan]
      exact ⟨_, rfl, hb, by simp⟩
    simp only [if_neg hs]
    obtain ⟨f', he, hl', hf⟩ := ih (q := { q with fairshare := some ⟨f.limits, below q.levels f.priority, 1⟩ })
      rfl hb ctxt1 (below_lt hb) rfl
    simp only [scan_fairshare] at he hf
    refine ⟨f', he, hl', fun x hx => ?_⟩
    obtain ⟨ps₁, ps₂, ho, hn1, hs1⟩ := hf x hx
    refine ⟨f.priority :: ps₁, ps₂, by rw [ho]; rfl, ?_, ?_⟩ <;> simpa [scan, h1]

/-! ## The search -/

def startLevel (q : PriorityQueue) : Nat := q.firstLevel.1.start

theorem startLevel_base (hq : q.fairshare = none) : q.startLevel = q.levels - 1 := by
  simp [startLevel, firstLevel, hq]

theorem limitReached_priority (f : Fairshare) : f.limitReached.2.priority = f.priority := by
  unfold Fairshare.limitReached
  simp only
  split <;> rfl

theorem startLevel_fairshare {f : Fairshare} (hq : q.fairshare = some f) :
    q.startLevel = if f.limitReached.1 then below q.levels f.priority else f.priority := by
  have hp := limitReached_priority f
  rcases hf : f.limitReached with ⟨r, f'⟩
  rw [hf] at hp
  simp only [startLevel, firstLevel, hq, Fairshare.currentLevel, hf]
  cases r <;> simp [Fairshare.nextLevel, below, ← hp]

/-- The state of a fairshare queue after a search that found a message: the
level of it is now current. -/
def LeftAt (q : PriorityQueue) (ctxt : List QueueCursor) (f : Fairshare) : Prop :=
  ∀ x, (q.scan (cycle q.levels q.startLevel) ctxt).1 = some x →
    ∃ ps₁ ps₂, cycle q.levels q.startLevel = ps₁ ++ f.priority :: ps₂ ∧
      (q.scan ps₁ ctxt).1 = none ∧ (q.scan (ps₁ ++ [f.priority]) ctxt).1 = some x

/-- The search scans all levels, downwards and round from the one it starts at. -/
theorem search_eq (hl : 0 < q.levels) (hf : ∀ f ∈ q.fairshare, f.priority < q.levels) {type : SubscriptionType}
    (ht : type ≠ .purge) (ctxt : List QueueCursor) : q.startLevel < q.levels ∧
      ∃ fs, q.search type ctxt = ((q.scan (cycle q.levels q.startLevel) ctxt).1,
          (q.scan (cycle q.levels q.startLevel) ctxt).2, { q with fairshare := fs }) ∧
        ((q.fairshare = none ∧ fs = none) ∨
          ∃ f, q.fairshare.isSome ∧ fs = some f ∧ f.priority < q.levels ∧ q.LeftAt ctxt f) := by
  cases hq : q.fairshare with
  | none =>
    have hs := startLevel_base hq
    refine ⟨by omega, none, ?_, .inl ⟨rfl, rfl⟩⟩
    have hc : cycle q.levels (q.levels - 1) = (List.range (q.levels - 1 + 1)).reverse := by
      rw [cycle, downTo_self, append_nil]
    have hloop := nextLoop_eq_scan hq q.levels (p := ⟨q.levels - 1, q.levels - 1⟩) (Nat.sub_le _ _) ctxt
    rw [hs, hc]
    simp only [search, ht, if_false, firstLevel, hq, hloop]
    rw [← hq]
  | some f =>
    have hs := startLevel_fairshare hq
    have hp := hf f hq
    have hlt : q.startLevel < q.levels := by
      rw [hs]
      split
      · exact below_lt hp
      · exact hp
    refine ⟨hlt, ?_⟩
    obtain ⟨f1, hf1, hp1⟩ : ∃ f1, q.firstLevel =
      (⟨q.startLevel, q.startLevel⟩, { q with fairshare := some f1 }) ∧
        f1.priority = q.startLevel := by
      have hpr := limitReached_priority f
      rcases hr : f.limitReached with ⟨r, f'⟩
      rw [hr] at hpr hs
      simp only [hs, firstLevel, hq, Fairshare.currentLevel, hr]
      cases r <;> simp [Fairshare.nextLevel, below, ← hpr]
    obtain ⟨f', he, hl', hx⟩ := nextLoop_fairshare (q := { q with fairshare := some f1 }) rfl q.levels
      (p := ⟨q.startLevel, q.startLevel⟩) hp1 (by rw [hp1]; exact hlt) ctxt
    simp only [scan_fairshare, order_eq_cycle hlt] at he hx
    refine ⟨some f', ?_, .inr ⟨f', rfl, rfl, hl', hx⟩⟩
    simp [search, ht, hf1, he]

end PriorityQueue

end QB.Impl
