import QpidBroker.Proof.MessageMap
import QpidBroker.Proof.RangeNumbers
import QpidBroker.Spec.PagedQueue

/-!
# The pages of a paged queue

A page is in memory or in the file. What it holds is the same in both
(`Page.view`), as long as the numbers on it are consecutive and the two sets it keeps say
which of its messages are deleted and which acquired (`Page.Wf`): `Wf.load`, `Wf.unload`.
On a page in memory, `find` finds the message with a number (`find_eq_some_iff`).
-/

namespace QB.Impl

open Serial Spec Spec.LastValue List

/-! ## Sets of sequence numbers -/

namespace SequenceSet

variable {k n : SequenceNumber} {s : SequenceSet} {N : SequenceNumber → Prop}

/-- The set stands for the numbers `N`, in the half of the number space that starts at `k`. -/
def Stands (k : SequenceNumber) (s : SequenceSet) (N : SequenceNumber → Prop) : Prop :=
  Sound (serialRuler k) s.ranges ∧ ∀ n, Covers (serialRuler k) s.ranges (dist k n) ↔ N n

theorem Stands.congr (h : Stands k s N) {N' : SequenceNumber → Prop} (hN : ∀ n, N n ↔ N' n) : Stands k s N' :=
  ⟨h.1, fun n => (h.2 n).trans (hN n)⟩

theorem stands_nil (k : SequenceNumber) : Stands k {} fun _ => False :=
  ⟨Sound.nil, fun _ => ⟨covers_nil, False.elim⟩⟩

/-- A set holds the numbers it stands for. -/
theorem Stands.holds_iff (h : Stands k s N) : s.holds n = true ↔ N n := by
  rw [← h.2 n, ← contains_iff_covers h.1, holds]
  cases s.contains n with
  | none => simp
  | some b => simp

theorem in_point_iff (hn : dist k n + 1 < 2 ^ 31) (x : SequenceNumber) :
    (serialRuler k).In (.point n) (dist k x) ↔ x = n := by
  obtain ⟨hwit, hnum⟩ := rangeWithin_point hn
  rw [← mem_rangeNumbers hwit, hnum, Set.mem_singleton_iff]

theorem Stands.plus (h : Stands k s N) (hn : dist k n + 1 < 2 ^ 31) : Stands k (s.plus n) fun x => N x ∨ x = n := by
  obtain ⟨s', hs', hsound, hcov⟩ := h.1.addRange (RangeWithin.forward (rangeWithin_point hn).1)
  rw [SequenceSet.plus, hs', Option.getD_some]
  refine ⟨hsound, fun x => ?_⟩
  rw [hcov, h.2, in_point_iff hn]

/-- At the end of the half there is nothing to remove. -/
theorem removeRange_end (h : Stands k s N) (hN : ∀ x, N x → dist k x + 2 < 2 ^ 31)
    (hn : dist k n = 2 ^ 31 - 1) : s.removeRange (.point n) = some s := by
  obtain ⟨pre, post, hl, hfind, -, hpost⟩ := h.1.find (r := .point n) (by show dist k n < 2 ^ 31; omega)
  have hnil : post = [] := by
    cases post with
    | nil => rfl
    | cons r post =>
      have hr := h.1.valid r (by simp [hl])
      have hbegin : dist k n ≤ dist k r.end_ := hpost r mem_cons_self
      have hlt : dist k r.begin_ < dist k r.end_ := hr.lt
      have hlimit : dist k r.end_ < 2 ^ 31 := hr.limit
      -- the last number of the range would be too close to the end
      have hlast : dist k (k + BitVec.ofNat 32 (dist k r.end_ - 1)) = dist k r.end_ - 1 :=
        dist_add k (by omega)
      have hmem := hN (k + BitVec.ofNat 32 (dist k r.end_ - 1)) ((h.2 _).1
        ⟨r, by simp [hl], by exact ⟨by show dist k r.begin_ ≤ _; omega, by show _ < dist k r.end_; omega⟩⟩)
      omega
  have hleng : s.find (.point n) = s.ranges.length := by
    rw [hl, hnil, append_nil]
    exact hfind
  unfold RangeSet.removeRange
  simp [hleng]

/-- Numbers two short of the half can be removed one by one. -/
theorem Stands.minus (h : Stands k s N) (hN : ∀ x, N x → dist k x + 2 < 2 ^ 31) (hn : dist k n < 2 ^ 31) :
    Stands k (s.minus n) fun x => N x ∧ x ≠ n := by
  by_cases hend : dist k n + 1 < 2 ^ 31
  · obtain ⟨s', hs', hsound, hcov⟩ := h.1.removeRange (RangeWithin.forward (rangeWithin_point hend).1)
    rw [SequenceSet.minus, hs', Option.getD_some]
    refine ⟨hsound, fun x => ?_⟩
    rw [hcov, h.2, in_point_iff hend]
  rw [SequenceSet.minus, removeRange_end h hN (by omega)]
  refine h.congr fun x => ⟨fun hx => ⟨hx, ?_⟩, And.left⟩
  rintro rfl
  have := hN x hx
  omega

theorem Stands.isEmpty_iff (h : Stands k s N) : s.ranges.isEmpty = true ↔ ∀ n, ¬ N n := by
  obtain ⟨l⟩ := s
  cases l with
  | nil => exact ⟨fun _ n hn => covers_nil ((h.2 n).2 hn), fun _ => rfl⟩
  | cons r l =>
    refine ⟨fun hl => absurd hl nofun, fun hN => absurd ((h.2 r.begin_).1 ?_) (hN _)⟩
    exact ⟨r, mem_cons_self, le_rfl, (h.1.valid r mem_cons_self).lt⟩

end SequenceSet

/-! ## What a page holds -/

@[simp] theorem face_sequence (m : Message) : (face m).sequence = m.sequence := rfl
@[simp] theorem face_state (m : Message) : (face m).state = m.state := rfl
namespace Page

variable {k n p : SequenceNumber} {page : Page} {m : Message}

theorem view_loaded (h : page.isLoaded = true) : page.view = page.messages.map face := if_pos h

/-- The view of a page that is not loaded is what loading it would give. -/
theorem view_unloaded (h : page.isLoaded = false) :
    page.view = (page.stored.take page.count).map fun e => page.reload e.1 := by
  rw [view, h, if_neg Bool.false_ne_true]

/-- The page is under the number `k`, and what it keeps of its messages is right. -/
structure Wf (k : SequenceNumber) (page : Page) : Prop where
  started : 0 < page.used
  stored : page.isLoaded = true → page.stored.map (fun e => content e.1) = page.messages.map content
  unloaded : page.isLoaded = false → page.messages = [] ∧ page.count = page.stored.length
  states : ∀ m ∈ page.view, m.state = .available ∨ m.state = .acquired ∨ m.state = .deleted
  contents : page.contents.Stands k fun n => ∃ m ∈ page.view, m.sequence = n ∧ m.state ≠ .deleted
  acquired : ∃ N, page.acquired.Stands k N ∧ ∀ n, N n → ∃ m ∈ page.view, m.sequence = n ∧
    m.state = .acquired
  window : Window (page.view.map (·.sequence))
  within : ∀ m ∈ page.view, dist k m.sequence + 2 < 2 ^ 31
  first : ∀ m ∈ page.view.head?, m.sequence = k

namespace Wf

theorem eq_of_sequence (h : page.Wf k) {m m' : Message} (hm : m ∈ page.view) (hm' : m' ∈ page.view)
    (hs : m.sequence = m'.sequence) : m = m' :=
  inj_on_of_nodup_map h.window.nodup hm hm' hs

/-- The contents are the messages that are not deleted. -/
theorem holds_contents (h : page.Wf k) (hm : m ∈ page.view) :
    page.contents.holds m.sequence = true ↔ m.state ≠ .deleted := by
  rw [h.contents.holds_iff]
  constructor
  · rintro ⟨m', hm', hs, hstate⟩
    rwa [h.eq_of_sequence hm hm' hs.symm]
  · exact fun hstate => ⟨m, hm, rfl, hstate⟩

/-! ## Loading and unloading -/

theorem view_load (h : page.Wf k) (hl : page.isLoaded = false) : page.load.view = page.view := by
  rw [view_unloaded hl, Page.load, if_pos h.started]
  simp only [view, (h.unloaded hl).1, nil_append, map_map]
  rfl

/-- Loading takes the states from the sets of the page. -/
theorem load (h : page.Wf k) (hl : page.isLoaded = false) : page.load.Wf k := by
  have hview := h.view_load hl
  have hpage : page.load.contents = page.contents ∧ page.load.acquired = page.acquired ∧
      page.load.isLoaded = true := by
    rw [Page.load, if_pos h.started]
    exact ⟨rfl, rfl, rfl⟩
  refine ⟨?_, fun _ => ?_, fun hf => absurd (hpage.2.2.symm.trans hf) nofun, ?_, ?_, ?_, ?_, ?_, ?_⟩
  · rw [Page.load, if_pos h.started]
    exact Nat.lt_add_right _ (by decide)
  · rw [Page.load, if_pos h.started]
    simp only [(h.unloaded hl).1, nil_append, map_map]
    rfl
  · rw [hview]
    exact h.states
  · rw [hview, hpage.1]
    exact h.contents
  · rw [hview, hpage.2.1]
    exact h.acquired
  · rw [hview]
    exact h.window
  · rw [hview]
    exact h.within
  · rw [hview]
    exact h.first

end Wf

theorem stands_acquired {N : SequenceNumber → Prop} (l : List Message) (s : SequenceSet) (hs : s.Stands k N)
    (hl : ∀ m ∈ l, dist k m.sequence + 1 < 2 ^ 31) :
    (l.foldl (fun s m => if m.state = .acquired then s.plus m.sequence else s) s).Stands k
      fun n => N n ∨ ∃ m ∈ l, m.sequence = n ∧ m.state = .acquired := by
  induction l generalizing s N with
  | nil => exact hs.congr fun n => by simp
  | cons m l ih =>
    rw [foldl_cons]
    obtain ⟨hm, hl⟩ := forall_mem_cons.1 hl
    split
    · rename_i hstate
      refine (ih _ (hs.plus hm) hl).congr fun n => ?_
      simp [hstate, or_assoc, @eq_comm _ n m.sequence]
    · rename_i hstate
      refine (ih s hs hl).congr fun n => ?_
      simp [hstate]

namespace Wf

/-- The states of the messages are in the sets when the page is unloaded. -/
theorem reload_unload (h : page.Wf k) (hl : page.isLoaded = true) {m : Message} (hm : m ∈ page.messages) :
    page.unload.reload m = face m := by
  have hview : face m ∈ page.view := by
    rw [view_loaded hl]
    exact mem_map_of_mem hm
  obtain ⟨N, hN, hacq⟩ := h.acquired
  have hsta := stands_acquired page.messages page.acquired hN fun x hx => by
    have := h.within (face x) (by rw [view_loaded hl]; exact mem_map_of_mem hx)
    rw [face_sequence] at this
    omega
  have hcon : page.contents.holds m.sequence = true ↔ m.state ≠ .deleted :=
    h.holds_contents (m := face m) hview
  have hholds : page.unload.acquired.holds m.sequence = true ↔ m.state = .acquired := by
    refine hsta.holds_iff.trans ⟨?_, fun hstate => .inr ⟨m, hm, rfl, hstate⟩⟩
    have heq {x : Message} (hx : x ∈ page.view) (hs : x.sequence = m.sequence) (hstate : x.state = .acquired) :
        m.state = .acquired := by
      rwa [h.eq_of_sequence hx hview hs] at hstate
    rintro (hn | ⟨x, hx, hs, hstate⟩)
    · obtain ⟨x, hx, hs, hstate⟩ := hacq _ hn
      exact heq hx hs hstate
    · refine heq (x := face x) ?_ hs hstate
      rw [view_loaded hl]
      exact mem_map_of_mem hx
  have hstat : m.state = .available ∨ m.state = .acquired ∨ m.state = .deleted := h.states (face m) hview
  unfold Page.reload face
  rcases hstat with hs | hs | hs <;> simp_all [Page.unload]

/-- Unloading is not to be seen in the view. -/
theorem view_unload (h : page.Wf k) (hl : page.isLoaded = true) : page.unload.view = page.view := by
  have hsto := h.stored hl
  have hleng : page.stored.length = page.messages.length := by
    simpa using congrArg List.length hsto
  -- what is loaded of a message is decided by its content
  let g (c : Option Encoding × SequenceNumber) : Message := page.unload.reload { encoding := c.1, sequence := c.2 }
  have hg : page.unload.stored.map (fun e => page.unload.reload e.1) = page.messages.map face := by
    calc page.unload.stored.map (fun e => page.unload.reload e.1) = (page.stored.map fun e => content e.1).map g := by
          rw [map_map]
          rfl
      _ = page.messages.map fun m => page.unload.reload m := by
          rw [hsto, map_map]
          rfl
      _ = page.messages.map face := map_congr_left fun m hm => h.reload_unload hl hm
  have htake : page.unload.stored.take page.unload.count = page.unload.stored :=
    take_of_length_le (Nat.le_of_eq hleng)
  rw [view_loaded hl, view_unloaded rfl, htake, hg]

theorem unload (h : page.Wf k) (hl : page.isLoaded = true) : page.unload.Wf k := by
  have hview := h.view_unload hl
  obtain ⟨N, hN, hacq⟩ := h.acquired
  have hmem {x : Message} (hx : x ∈ page.messages) : face x ∈ page.view := by
    rw [view_loaded hl]
    exact mem_map_of_mem hx
  have hsta := stands_acquired page.messages page.acquired hN fun x hx => by
    have := h.within (face x) (hmem hx)
    rw [face_sequence] at this
    omega
  refine ⟨h.started, fun hf => absurd hf nofun, fun _ => ⟨rfl, ?_⟩, ?_, ?_, ⟨_, hsta, ?_⟩, ?_, ?_, ?_⟩
  · show page.messages.length = page.stored.length
    simpa using (congrArg List.length (h.stored hl)).symm
  · rw [hview]
    exact h.states
  · rw [hview]
    exact h.contents
  · rw [hview]
    rintro n (hn | ⟨x, hx, hs, hstate⟩)
    · exact hacq n hn
    · exact ⟨face x, hmem hx, hs, hstate⟩
  · rw [hview]
    exact h.window
  · rw [hview]
    exact h.within
  · rw [hview]
    exact h.first

end Wf

/-! ## Finding a message in memory -/

/-- A message is found at the index that its number tells. -/
theorem find_eq_some_iff (hw : Window (page.messages.map (·.sequence))) {i : Nat} :
    page.find p = some i ↔ (page.messages.map (·.sequence))[i]? = some p := by
  unfold Page.find
  cases hm : page.messages with
  | nil => simp
  | cons m ms =>
    rw [hm] at hw
    have hl := hw.length_le
    rw [hw.getElem?_eq_some_iff rfl]
    simp only [length_map]
    rw [length_map] at hl
    by_cases hd : dist m.sequence p < 2 ^ 31
    · rw [SequenceNumber.sub, toInt_sub_of_lt hd]
      split
      · simp only [Option.some.injEq]
        exact ⟨fun h => ⟨by omega, h⟩, fun h => h.2⟩
      · simp only [reduceCtorEq, false_iff]
        omega
    have hneg : p.sub m.sequence < 0 := (toInt_sub_neg_iff _ _).2 (Nat.not_lt.1 hd)
    rw [if_neg fun h => absurd h.1 (by omega)]
    simp only [reduceCtorEq, false_iff]
    omega

/-- A page in memory covers the numbers from its own on. -/
theorem Wf.covers (h : page.Wf k) (hl : page.isLoaded = true) (hp : dist k p < 2 ^ 31) : page.covers p = true := by
  rw [Page.covers, Option.all_eq_true]
  intro front hf
  have hk : front.sequence = k := h.first (face front) (by rw [view_loaded hl, head?_map, hf]; rfl)
  rw [hk, SequenceNumber.le, Bool.not_eq_true', ← Bool.not_eq_true, SequenceNumber.lt_iff]
  exact Nat.not_le.2 hp

/-! ## Writing the message under a number -/

/-- The message with the number changed, any other as it is. -/
def mark (p : SequenceNumber) (g : Message → Message) (m : Message) : Message :=
  if m.sequence = p then g m else m

/-- The function keeps the content of a message, and does not read what the broker noted of it. -/
structure Keeps (g : Message → Message) : Prop where
  content (m : Message) : content (g m) = content m
  face (m : Message) : face (g m) = g (face m)

theorem keeps_setState (st : MessageState) : Keeps (·.setState st) := ⟨fun _ => rfl, fun _ => rfl⟩

theorem keeps_acquire : Keeps fun m => (FifoDistributor.acquire m).2 :=
  ⟨MessageMap.content_acquire, fun m => by unfold FifoDistributor.acquire; rw [face_state]; split <;> rfl⟩

variable {g : Message → Message}

theorem Keeps.sequence (hg : Keeps g) (m : Message) : (g m).sequence = m.sequence :=
  congrArg Prod.snd (hg.content m)

theorem Keeps.mark (hg : Keeps g) (p : SequenceNumber) : Keeps (mark p g) where
  content m := by
    unfold Page.mark
    split
    · exact hg.content m
    · rfl
  face m := by
    unfold Page.mark
    rw [face_sequence]
    split
    · exact hg.face m
    · rfl

theorem mark_state (m : Message) :
    (mark p g m).state = if m.sequence = p then (g m).state else m.state := apply_ite _ _ _ _

/-- A change at an index is a change of the message with its number. -/
theorem modify_eq_map {l : List Message} (hl : (l.map (·.sequence)).Nodup) {i : Nat}
    (hi : (l.map (·.sequence))[i]? = some p) : l.modify i g = l.map (mark p g) := by
  refine ext_getElem? fun j => ?_
  rw [getElem?_modify, getElem?_map]
  rw [getElem?_map] at hi
  obtain ⟨x, hx, hxp⟩ := Option.map_eq_some_iff.1 hi
  cases hj : l[j]? with
  | none => rfl
  | some y =>
    simp only [Option.map_eq_map, Option.map_some]
    have hiff : i = j ↔ y.sequence = p := by
      constructor
      · rintro rfl
        rw [hx] at hj
        rw [← Option.some.inj hj, hxp]
      intro hy
      have hlt := (List.getElem?_eq_some_iff.1 hx).1
      refine (List.getElem?_inj (by simpa using hlt) hl).1 ?_
      rw [getElem?_map, getElem?_map, hx, hj, Option.map_some, Option.map_some, hxp, hy]
    unfold mark
    split
    · rename_i h
      rw [if_pos (hiff.1 h)]
    · rename_i h
      rw [if_neg fun h' => h (hiff.2 h')]

namespace Wf

variable {g : Message → Message} {c a : SequenceSet}

/-- What a change of states has to keep. -/
theorem write (h : page.Wf k) (hg : Keeps g) {page' : Page} (hview : page'.view = page.view.map g)
    (hsta : 0 < page'.used)
    (hsto : page'.isLoaded = true → page'.stored.map (fun e => content e.1) = page'.messages.map content)
    (hunl : page'.isLoaded = false → page'.messages = [] ∧ page'.count = page'.stored.length)
    (hstat : ∀ m ∈ page.view, (g m).state = .available ∨ (g m).state = .acquired ∨ (g m).state = .deleted)
    (hc : page'.contents.Stands k fun n => ∃ m ∈ page.view, m.sequence = n ∧ (g m).state ≠ .deleted)
    (ha : ∃ N, page'.acquired.Stands k N ∧ ∀ n, N n → ∃ m ∈ page.view, m.sequence = n ∧
      (g m).state = .acquired) :
    page'.Wf k := by
  have hseqs : (page.view.map g).map (·.sequence) = page.view.map (·.sequence) := by
    rw [map_map]
    exact map_congr_left fun m _ => hg.sequence m
  have hmem (P : MessageState → Prop) (n : SequenceNumber) :
      (∃ m ∈ page.view.map g, m.sequence = n ∧ P m.state) ↔
      ∃ m ∈ page.view, m.sequence = n ∧ P (g m).state := by
    simp [hg.sequence]
  refine ⟨hsta, hsto, hunl, ?_, ?_, ?_, ?_, ?_, ?_⟩
  · rw [hview]
    exact forall_mem_map.2 hstat
  · rw [hview]
    exact hc.congr fun n => (hmem (· ≠ .deleted) n).symm
  · rw [hview]
    obtain ⟨N, hN, hacq⟩ := ha
    exact ⟨N, hN, fun n hn => (hmem (· = .acquired) n).2 (hacq n hn)⟩
  · rw [hview, hseqs]
    exact h.window
  · rw [hview]
    refine forall_mem_map.2 fun m hm => ?_
    rw [hg.sequence]
    exact h.within m hm
  · rw [hview, head?_map]
    intro m' hm'
    obtain ⟨m, hm, rfl⟩ := Option.map_eq_some_iff.1 hm'
    rw [hg.sequence]
    exact h.first m hm

theorem write_loaded (h : page.Wf k) (hl : page.isLoaded = true) (hg : Keeps g) (page' : Page)
    (hl' : page'.isLoaded = true) (hmes : page'.messages = page.messages.map g)
    (hrest : page'.stored = page.stored ∧ page'.used = page.used)
    (hsta : ∀ m ∈ page.view, (g m).state = .available ∨ (g m).state = .acquired ∨ (g m).state = .deleted)
    (hc : page'.contents.Stands k fun n => ∃ m ∈ page.view, m.sequence = n ∧ (g m).state ≠ .deleted)
    (ha : ∃ N, page'.acquired.Stands k N ∧ ∀ n, N n → ∃ m ∈ page.view, m.sequence = n ∧
      (g m).state = .acquired) :
    page'.Wf k ∧ page'.view = page.view.map g := by
  have hview : page'.view = page.view.map g := by
    rw [view_loaded hl', view_loaded hl, hmes, map_map, map_map]
    exact map_congr_left fun m _ => hg.face m
  refine ⟨h.write hg hview (hrest.2 ▸ h.started) (fun _ => ?_) (fun hf =>
    absurd (hl'.symm.trans hf) nofun) hsta hc ha,
    hview⟩
  rw [hrest.1, hmes, map_map, h.stored hl]
  exact map_congr_left fun m _ => (hg.content m).symm

theorem stands_contents_deleted (h : page.Wf k) (hp : dist k p < 2 ^ 31) : (page.contents.minus p).Stands k
      fun n => ∃ m ∈ page.view, m.sequence = n ∧ (mark p (·.setState .deleted) m).state ≠ .deleted := by
  refine (h.contents.minus ?_ hp).congr fun n => ?_
  · rintro x ⟨m, hm, rfl, -⟩
    exact h.within m hm
  constructor
  · rintro ⟨⟨m, hm, rfl, hstate⟩, hne⟩
    refine ⟨m, hm, rfl, ?_⟩
    rwa [mark_state, if_neg hne]
  rintro ⟨m, hm, rfl, hstate⟩
  by_cases hs : m.sequence = p
  · rw [mark_state, if_pos hs] at hstate
    exact absurd rfl hstate
  · rw [mark_state, if_neg hs] at hstate
    exact ⟨⟨m, hm, rfl, hstate⟩, hs⟩

/-- What is left in the set of acquired messages is acquired after the change. -/
theorem stands_acquired_minus (h : page.Wf k) (hp : dist k p < 2 ^ 31) (g : Message → Message) :
    ∃ N, (page.acquired.minus p).Stands k N ∧
      ∀ n, N n → ∃ m ∈ page.view, m.sequence = n ∧ (mark p g m).state = .acquired := by
  obtain ⟨N, hN, hacq⟩ := h.acquired
  refine ⟨_, hN.minus ?_ hp, ?_⟩
  · intro x hx
    obtain ⟨m, hm, rfl, -⟩ := hacq x hx
    exact h.within m hm
  rintro n ⟨hn, hne⟩
  obtain ⟨m, hm, rfl, hstate⟩ := hacq n hn
  refine ⟨m, hm, rfl, ?_⟩
  rwa [mark_state, if_neg hne]

theorem modify_eq (h : page.Wf k) (hl : page.isLoaded = true) {i : Nat} (hi : page.find p = some i)
    (g : Message → Message) : page.messages.modify i g = page.messages.map (mark p g) := by
  have hw := h.window
  rw [view_loaded hl, map_map] at hw
  exact modify_eq_map hw.nodup ((find_eq_some_iff hw).1 hi)

theorem states_mark (h : page.Wf k) (st : MessageState)
    (hst : st = .available ∨ st = .acquired ∨ st = .deleted) (m : Message) (hm : m ∈ page.view) :
    (mark p (·.setState st) m).state = .available ∨ (mark p (·.setState st) m).state = .acquired ∨
      (mark p (·.setState st) m).state = .deleted := by
  rw [mark_state]
  split
  · exact hst
  · exact h.states m hm

theorem reload_remove (h : page.Wf k) (hp : dist k p < 2 ^ 31) (m : Message) :
    (page.remove p).reload m = mark p (·.setState .deleted) (page.reload m) := by
  obtain ⟨N, hN, hacq⟩ := h.acquired
  have hcon : (page.remove p).contents.holds m.sequence = true ↔
      page.contents.holds m.sequence = true ∧ m.sequence ≠ p := by
    rw [h.contents.holds_iff]
    refine (h.contents.minus ?_ hp).holds_iff
    rintro x ⟨m, hm, rfl, -⟩
    exact h.within m hm
  have hacq : (page.remove p).acquired.holds m.sequence = true ↔
      page.acquired.holds m.sequence = true ∧ m.sequence ≠ p := by
    rw [hN.holds_iff]
    refine (hN.minus ?_ hp).holds_iff
    intro x hx
    obtain ⟨m, hm, rfl, -⟩ := hacq x hx
    exact h.within m hm
  unfold mark Page.reload
  by_cases hs : m.sequence = p <;> simp_all [Message.setState]

/-- A deletion marks the message in the view, loaded or not. -/
theorem deleted (h : page.Wf k) (hp : dist k p < 2 ^ 31) {page' : Page} (h' : page.deleted p = some page') :
    page'.Wf k ∧ page'.view = page.view.map (mark p (·.setState .deleted)) := by
  have hc := h.stands_contents_deleted hp
  have ha := h.stands_acquired_minus hp (·.setState .deleted)
  have hsta := h.states_mark (p := p) .deleted (.inr (.inr rfl))
  have hkeeps := (keeps_setState .deleted).mark p
  unfold Page.deleted at h'
  split at h'
  · rename_i hl
    obtain ⟨i, hi, rfl⟩ := Option.map_eq_some_iff.1 h'
    exact h.write_loaded hl hkeeps _ hl (h.modify_eq hl hi _) ⟨rfl, rfl⟩ hsta hc ha
  rename_i hl
  rw [Bool.not_eq_true] at hl
  cases h'
  have hview : (page.remove p).view = page.view.map (mark p (·.setState .deleted)) := by
    rw [view_unloaded hl, show (page.remove p).view = _ from view_unloaded hl, map_map]
    exact map_congr_left fun e _ => h.reload_remove hp e.1
  exact ⟨h.write hkeeps hview h.started (fun hf => absurd (hl.symm.trans hf) nofun)
    (fun _ => h.unloaded hl) hsta hc ha, hview⟩

theorem stands_contents_mark (h : page.Wf k)
    (hg : ∀ m ∈ page.view, m.sequence = p → ((g m).state = .deleted ↔ m.state = .deleted)) :
    page.contents.Stands k fun n => ∃ m ∈ page.view, m.sequence = n ∧ (mark p g m).state ≠ .deleted := by
  refine h.contents.congr fun n => exists_congr fun m => and_congr_right fun hm => and_congr_right fun _ => ?_
  rw [mark_state]
  split
  · rename_i hs
    exact (not_congr (hg m hm hs)).symm
  · exact Iff.rfl

/-- A message released that was not deleted is available in the view. -/
theorem release (h : page.Wf k) (hl : page.isLoaded = true) (hp : dist k p < 2 ^ 31)
    (hnot : ∀ m ∈ page.view, m.sequence = p → m.state ≠ .deleted) :
    (page.release p).2.Wf k ∧ (page.release p).2.view = page.view.map (mark p (·.setState .available)) ∧
      (page.release p).1 = page.find p := by
  have hc := h.stands_contents_mark (g := (·.setState .available))
    fun m hm hs => ⟨fun hf => absurd hf nofun, fun hf => absurd hf (hnot m hm hs)⟩
  have ha := h.stands_acquired_minus hp (·.setState .available)
  have hsta := h.states_mark (p := p) .available (.inl rfl)
  have hkeeps := (keeps_setState .available).mark p
  unfold Page.release
  cases hi : page.find p with
  | some i =>
    obtain ⟨hwf, hview⟩ := h.write_loaded hl hkeeps { page.modify i _ with acquired := page.acquired.minus p }
      hl (h.modify_eq hl hi _) ⟨rfl, rfl⟩ hsta hc ha
    exact ⟨hwf, hview, rfl⟩
  | none =>
    have hsame : page.messages = page.messages.map (mark p (·.setState .available)) := by
      conv_lhs => rw [← map_id page.messages]
      refine map_congr_left fun m hm => ?_
      have hne : m.sequence ≠ p := by
        intro hs
        have hw := h.window
        rw [view_loaded hl, map_map] at hw
        obtain ⟨i, hlt, hget⟩ := getElem_of_mem hm
        have : page.find p = some i := (find_eq_some_iff hw).2 (by
          rw [getElem?_map, getElem?_eq_getElem hlt, hget, Option.map_some, hs])
        exact absurd (hi.symm.trans this) nofun
      exact (if_neg hne).symm
    obtain ⟨hwf, hview⟩ := h.write_loaded hl hkeeps { page with acquired := page.acquired.minus p }
      hl hsame ⟨rfl, rfl⟩ hsta hc ha
    exact ⟨hwf, hview, rfl⟩

/-- An acquisition marks the message in the view. -/
theorem acquire (h : page.Wf k) (hl : page.isLoaded = true) {i : Nat} (hi : page.find p = some i) :
    (page.modify i fun m => (FifoDistributor.acquire m).2).Wf k ∧
      (page.modify i fun m => (FifoDistributor.acquire m).2).view =
        page.view.map (mark p fun m => (FifoDistributor.acquire m).2) := by
  have hstate (m : Message) : (FifoDistributor.acquire m).2.state =
      if m.state = .available then .acquired else m.state := by
    unfold FifoDistributor.acquire
    split <;> rfl
  refine h.write_loaded hl (keeps_acquire.mark p) _ hl (h.modify_eq hl hi _) ⟨rfl, rfl⟩ (fun m hm => ?_)
    (h.stands_contents_mark fun m _ _ => ?_) ?_
  · rw [mark_state, hstate]
    by_cases hp : m.sequence = p
    · rw [if_pos hp]
      rcases h.states m hm with hs | hs | hs <;> simp [hs]
    · rw [if_neg hp]
      exact h.states m hm
  · rw [hstate]
    split
    · rename_i hs
      simp [hs]
    · exact Iff.rfl
  obtain ⟨N, hN, hacq⟩ := h.acquired
  refine ⟨N, hN, fun n hn => ?_⟩
  obtain ⟨m, hm, hs, hm'⟩ := hacq n hn
  refine ⟨m, hm, hs, ?_⟩
  rw [mark_state, hstate, hm']
  simp

theorem length_lt (h : page.Wf k) : page.view.length < 2 ^ 31 := by
  have hw := h.window
  have hl := hw.length_le
  rw [length_map] at hl
  rcases Nat.eq_zero_or_pos page.view.length with hz | hpos
  · omega
  obtain ⟨a, ha⟩ : ∃ a, (page.view.map (·.sequence)).head? = some a := by
    cases hv : page.view with
    | nil => rw [hv] at hpos; exact absurd hpos (by simp)
    | cons m ms => exact ⟨m.sequence, rfl⟩
  obtain ⟨x, hx, hxa⟩ : ∃ x ∈ page.view, x.sequence = a + BitVec.ofNat 32 (page.view.length - 1) := by
    have hlt : page.view.length - 1 < page.view.length := by omega
    refine ⟨page.view[page.view.length - 1], getElem_mem hlt, ?_⟩
    refine hw.consec.getElem?_eq ha ?_
    rw [getElem?_map, getElem?_eq_getElem hlt, Option.map_some]
  obtain ⟨y, hy, rfl⟩ : ∃ y ∈ page.view, y.sequence = a := by
    simpa using mem_of_mem_head? ha
  have h1 := h.within x hx
  have h2 := h.within y hy
  simp only [Serial.dist] at h1 h2
  bv_omega

/-- A message added is at the end of the view. -/
theorem add (h : page.Wf k) (hl : page.isLoaded = true) {added : Message} {encoded : Nat}
    (hadd : (page.add added encoded).1 = true) (hwit : dist k added.sequence + 2 < 2 ^ 31)
    (hnext : ∀ m ∈ page.view.getLast?, added.sequence = m.sequence + 1)
    (hfirst : page.view = [] → added.sequence = k) :
    (page.add added encoded).2.Wf k ∧
      (page.add added encoded).2.view = page.view ++ [face (added.setState .available)] := by
  unfold Page.add at hadd ⊢
  split at hadd
  · exact absurd hadd nofun
  rename_i hroom
  rw [if_neg hroom]
  have hview : ({ page with
      used := page.used + encoded
      stored := page.stored ++ [(added, encoded)]
      messages := page.messages ++ [added.setState .available]
      contents := page.contents.plus added.sequence } : Page).view =
      page.view ++ [face (added.setState .available)] := by
    rw [view_loaded hl]
    exact (if_pos hl).trans map_append
  have hmem (P : MessageState → Prop) (n : SequenceNumber) :
      (∃ m ∈ page.view ++ [face (added.setState .available)], m.sequence = n ∧ P m.state) ↔
        (∃ m ∈ page.view, m.sequence = n ∧ P m.state) ∨ (added.sequence = n ∧ P .available) := by
    simp only [mem_append, mem_singleton, or_and_right, exists_or, exists_eq_left]
    rfl
  refine ⟨⟨Nat.lt_add_right _ h.started, fun _ => ?_, fun hf => absurd (hl.symm.trans hf) nofun, ?_,
    ?_, ?_, ?_, ?_, ?_⟩,
    hview⟩
  · simp only [map_append, h.stored hl]
    rfl
  · rw [hview]
    intro m hm
    rcases mem_append.1 hm with hm | hm
    · exact h.states m hm
    · rw [mem_singleton.1 hm]
      exact .inl rfl
  · rw [hview]
    refine (h.contents.plus (by omega)).congr fun n => ?_
    rw [@eq_comm _ n]
    simp
  · rw [hview]
    obtain ⟨N, hN, hacq⟩ := h.acquired
    exact ⟨N, hN, fun n hn => (hmem (· = .acquired) n).2 (.inl (hacq n hn))⟩
  · rw [hview, map_append]
    refine ⟨h.window.consec.append_singleton fun a ha => ?_, ?_⟩
    · rw [getLast?_map] at ha
      obtain ⟨m, hm, rfl⟩ := Option.map_eq_some_iff.1 ha
      exact hnext m hm
    · have := h.length_lt
      simp only [length_append, length_map, length_singleton]
      omega
  · rw [hview]
    intro m hm
    rcases mem_append.1 hm with hm | hm
    · exact h.within m hm
    · rw [mem_singleton.1 hm]
      exact hwit
  rw [hview]
  cases hv : page.view with
  | nil =>
    rintro _ ⟨⟩
    exact hfirst hv
  | cons m ms =>
    rintro _ ⟨⟩
    exact h.first m (by rw [hv]; rfl)

/-- A page that is taken from the free ones shows nothing. -/
theorem fresh {page : Page} (k : SequenceNumber) (hused : page.used = 0) (hmes : page.messages = [])
    (hc : page.contents.ranges = []) (ha : page.acquired.ranges = []) :
    page.load.Wf k ∧ page.load.view = [] ∧ page.load.isLoaded = true := by
  have hload : page.load = { page with isLoaded := true, used := 4, stored := [] } := by
    rw [Page.load, if_neg (by omega)]
  have hview : page.load.view = [] := by
    rw [hload]
    simp [view, hmes]
  have hnil {s : SequenceSet} (hs : s.ranges = []) : s.Stands k fun _ => False := by
    obtain ⟨l⟩ := s
    obtain rfl : l = [] := hs
    exact SequenceSet.stands_nil k
  refine ⟨⟨?_, fun _ => ?_, fun hf => ?_, ?_, ?_, ⟨fun _ => False, ?_, nofun⟩, ?_, ?_, ?_⟩, hview, ?_⟩
  · rw [hload]
    exact Nat.succ_pos 3
  · rw [hload]
    simp [hmes]
  · rw [hload] at hf
    exact absurd hf nofun
  · rw [hview]
    exact nofun
  · rw [hview, hload]
    exact (hnil hc).congr fun n => by simp
  · rw [hload]
    exact hnil ha
  · rw [hview]
    exact Window.nil
  · rw [hview]
    exact nofun
  · rw [hview]
    exact nofun
  · rw [hload]

end Wf

end Page

end QB.Impl
