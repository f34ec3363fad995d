import QpidBroker.Framework.Octets
import QpidBroker.Framework.Outcome

/-!
# Reading from and writing to a bounded string of octets

A decoder reads from the octets that are left, an encoder writes where there is room for
so many more. Both can fail. What an encoder writes (`Writes`), what a decoder makes of
given octets whatever follows them (`Reads`) and how many octets it takes (`Consumes`) are
put together from the parts with the rules for `bind`.
-/

namespace QB.Codec

open List

variable {ε α β : Type}

/-! ## Encoders -/

/-- What was written, and the room for more. -/
structure Output where
  written : Octets := []
  room : Nat
deriving DecidableEq

abbrev Encoder (ε : Type) := StateT Output (Except ε)

/-- Write octets; without room for all of them it fails with `full`. -/
def put (full : ε) (o : Octets) : Encoder ε Unit := fun b =>
  if b.room < o.length then .error full else .ok ((), ⟨b.written ++ o, b.room - o.length⟩)

/-- The encoder writes just these octets, and fails with `full` if there is no room. -/
def Writes (full : ε) (x : Encoder ε Unit) (o : Octets) : Prop := ∀ b, x b = put full o b

variable {o : Octets}

theorem put_eq_ok (full : ε) {b : Output} (h : o.length ≤ b.room) :
    put full o b = .ok ((), ⟨b.written ++ o, b.room - o.length⟩) := if_neg (Nat.not_lt.2 h)

namespace Writes

variable {full : ε} {x y : Encoder ε Unit} {o p : Octets}

theorem put (o : Octets) : Writes full (put full o) o := fun _ => rfl

theorem nil : Writes full (pure () : Encoder ε Unit) [] := by
  intro b
  rw [put_eq_ok full (Nat.zero_le _), append_nil]
  rfl

theorem bind (hx : Writes full x o) (hy : Writes full y p) : Writes full (do x; y) (o ++ p) := by
  intro b
  have hbind : (do x; y : Encoder ε Unit) b = Codec.put full o b >>= fun r => y r.2 := by rw [← hx]; rfl
  rw [hbind]
  by_cases ho : b.room < o.length
  · rw [Codec.put, Codec.put, if_pos ho, if_pos (by rw [length_append]; omega)]
    rfl
  rw [put_eq_ok full (Nat.not_lt.1 ho)]
  change y _ = _
  rw [hy, Codec.put, Codec.put, length_append, append_assoc]
  simp [Nat.sub_lt_iff_lt_add' (Nat.not_lt.1 ho), Nat.sub_sub]

end Writes

/-! ## Decoders -/

abbrev Decoder (ε : Type) := StateT Octets (Except ε)

/-- Read `n` octets; if there are fewer it fails with `short`. -/
def take (short : ε) (n : Nat) : Decoder ε Octets := fun b =>
  if b.length < n then .error short else .ok (b.take n, b.drop n)

theorem take_eq_ok {short : ε} {n : Nat} {b : Octets} (h : n ≤ b.length) :
    take short n b = .ok (b.take n, b.drop n) := if_neg (Nat.not_lt.2 h)

variable {f : α → Decoder ε β}

theorem bind_apply_ok {d : Decoder ε α} {l r : Octets} {a : α} (h : d l = .ok (a, r)) : (d >>= f) l = f a r := by
  have hbind : (d >>= f) l = d l >>= fun r => f r.1 r.2 := rfl
  rw [hbind, h]
  rfl

theorem bind_apply_error {d : Decoder ε α} {l : Octets} {e : ε} (h : d l = .error e) :
    (d >>= f) l = .error e := bind_eq_error.2 (.inl h)

/-- The decoder takes just these octets, whatever follows them, and returns `a`. -/
def Reads (d : Decoder ε α) (o : Octets) (a : α) : Prop := ∀ rest, d (o ++ rest) = .ok (a, rest)

namespace Reads

variable {d : Decoder ε α} {o p : Octets} {a : α} {b : β}

theorem pure (a : α) : Reads (Pure.pure a : Decoder ε α) [] a := fun _ => rfl

theorem take (short : ε) (o : Octets) : Reads (take short o.length) o o := by
  intro rest
  rw [take_eq_ok (by rw [length_append]; omega), take_left, drop_left]

theorem bind {f : α → Decoder ε β} (hd : Reads d o a) (hf : Reads (f a) p b) : Reads (d >>= f) (o ++ p) b := by
  intro rest
  rw [append_assoc, bind_apply_ok (hd _)]
  exact hf rest

theorem map (f : α → β) (hd : Reads d o a) : Reads (f <$> d) o (f a) := by
  intro rest
  have hmap : (f <$> d) (o ++ rest) = d (o ++ rest) >>= fun r => Pure.pure (f r.1, r.2) := rfl
  rw [hmap, hd]
  rfl

end Reads

/-- The decoder fails with an exception in `P`, or it takes `n` octets. -/
def Consumes (P : ε → Prop) (d : Decoder ε α) (n : Nat) : Prop := ∀ l : Octets,
  (∃ e, P e ∧ d l = .error e) ∨ ∃ a, n ≤ l.length ∧ d l = .ok (a, l.drop n)

namespace Consumes

variable {P : ε → Prop} {d : Decoder ε α} {m n : Nat}

theorem pure (a : α) : Consumes P (Pure.pure a : Decoder ε α) 0 := fun _ => .inr ⟨a, Nat.zero_le _, rfl⟩

theorem bind {f : α → Decoder ε β} (hd : Consumes P d m) (hf : ∀ a, Consumes P (f a) n) :
    Consumes P (d >>= f) (m + n) := by
  intro l
  have hbind : (d >>= f) l = d l >>= fun r => f r.1 r.2 := rfl
  rw [hbind]
  obtain ⟨e, he, hl⟩ | ⟨a, hm, hl⟩ := hd l
  · exact .inl ⟨e, he, by rw [hl]; rfl⟩
  rw [hl]
  obtain ⟨e, he, hr⟩ | ⟨b, hn, hr⟩ := hf a (l.drop m)
  · exact .inl ⟨e, he, hr⟩
  · rw [length_drop] at hn
    rw [drop_drop] at hr
    exact .inr ⟨b, by omega, hr⟩

end Consumes

/-- What follows the octets that the decoder takes is no matter: if it returns a value, it
returns the same with more octets behind. -/
structure Stable (d : Decoder ε α) : Prop where
  append {l r : Octets} {a : α} (h : d l = .ok (a, r)) (t : Octets) : d (l ++ t) = .ok (a, r ++ t)
  le {l r : Octets} {a : α} (h : d l = .ok (a, r)) : r.length ≤ l.length

namespace Stable

variable {d : Decoder ε α}

theorem pure (a : α) : Stable (Pure.pure a : Decoder ε α) where
  append h _ := by cases h; rfl
  le h := by cases h; exact le_rfl

theorem throw (e : ε) : Stable (throw e : Decoder ε α) where
  append h _ := by cases h
  le h := by cases h

theorem take (short : ε) (n : Nat) : Stable (take short n) where
  append {l r a} h t := by
    unfold Codec.take at h
    split at h
    · cases h
    cases h
    have hn : n ≤ l.length := by omega
    rw [take_eq_ok (by rw [length_append]; omega), take_append_of_le_length hn, drop_append_of_le_length hn]
  le {l r a} h := by
    unfold Codec.take at h
    split at h
    · cases h
    · cases h
      rw [length_drop]
      omega

theorem bind {f : α → Decoder ε β} (hd : Stable d) (hf : ∀ a, Stable (f a)) : Stable (d >>= f) where
  append h t := by
    obtain ⟨⟨a, r⟩, hl, hr⟩ := bind_eq_ok.1 h
    exact bind_eq_ok.2 ⟨(a, r ++ t), hd.append hl t, (hf a).append hr t⟩
  le h := by
    obtain ⟨⟨a, r⟩, hl, hr⟩ := bind_eq_ok.1 h
    exact ((hf a).le hr).trans (hd.le hl)

theorem map (f : α → β) (hd : Stable d) : Stable (f <$> d) := by
  exact hd.bind fun a => Stable.pure (f a)

end Stable

end QB.Codec
