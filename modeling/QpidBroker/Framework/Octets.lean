import Mathlib.Data.BitVec
import Mathlib.Order.Defs.Unbundled
import Mathlib.Tactic.Ring

/-!
# Octets, words and floating-point patterns

A big-endian read of octets into a word of `n` bits (`Octets.word`) keeps the
low bits of the number they write (`toNat_word`), and reads back the octets that
a word is written in (`word_ofNat`). A floating-point pattern is compared through
the number it stands for (`FloatValue`).
-/

namespace QB

open List

/-- A string of octets. -/
abbrev Octets := List (BitVec 8)

namespace Octets

/-- Texts are in the order of their first difference. -/
instance : IsStrictTotalOrder Octets (· < ·) where
  irrefl a := by
    have : Std.Irrefl (· < · : BitVec 8 → BitVec 8 → Prop) := ⟨BitVec.lt_irrefl⟩
    exact List.lt_irrefl a
  trans a b c := by
    have : Trans (· < · : BitVec 8 → BitVec 8 → Prop) (· < ·) (· < ·) := ⟨BitVec.lt_trans⟩
    exact List.lt_trans
  trichotomous a b h h' := by
    have : Std.Trichotomous (· < · : BitVec 8 → BitVec 8 → Prop) := ⟨fun a b h h' => by bv_omega⟩
    exact List.le_antisymm h' h

/-- The octets of a text in ASCII. -/
def ascii (s : List Char) : Octets := s.map fun c => BitVec.ofNat 8 c.toNat

/-- The number that octets write, the first the most significant. -/
def toNat (l : Octets) : Nat := l.foldl (fun v o => v * 256 + o.toNat) 0

/-- Octets shifted one after another into a word. -/
def word (n : Nat) (l : Octets) : BitVec n := l.foldl (fun v o => v <<< 8 ||| o.setWidth n) 0

theorem toNat_shift {n : Nat} (v : BitVec n) (o : BitVec 8) :
    (v <<< 8 ||| o.setWidth n).toNat = (v.toNat * 256 + o.toNat) % 2 ^ n := by
  rw [BitVec.toNat_or, BitVec.toNat_shiftLeft, BitVec.toNat_setWidth, ← Nat.or_mod_two_pow,
    ← Nat.shiftLeft_add_eq_or_of_lt o.isLt, Nat.shiftLeft_eq]

theorem toNat_foldl {n : Nat} (l : Octets) : ∀ (v : BitVec n) (a : Nat), v.toNat = a % 2 ^ n →
    (l.foldl (fun (v : BitVec n) o => v <<< 8 ||| o.setWidth n) v).toNat =
      l.foldl (fun v o => v * 256 + o.toNat) a % 2 ^ n := by
  induction l with
  | nil => intro v a h; exact h
  | cons o l ih =>
    intro v a h
    refine ih _ _ ?_
    rw [toNat_shift, h, Nat.add_mod, Nat.mul_mod, Nat.mod_mod, ← Nat.mul_mod, ← Nat.add_mod]

theorem toNat_word (n : Nat) (l : Octets) : (l.word n).toNat = l.toNat % 2 ^ n :=
  toNat_foldl l 0 0 (by simp)

theorem foldl_lt (l : Octets) : ∀ a b : Nat, a < b →
    l.foldl (fun v o => v * 256 + o.toNat) a < b * 256 ^ l.length := by
  induction l with
  | nil => simp
  | cons o l ih =>
    intro a b h
    have := ih (a * 256 + o.toNat) (b * 256) (by omega)
    rw [length_cons, pow_succ, mul_comm (256 ^ l.length), ← mul_assoc]
    exact this

theorem toNat_lt (l : Octets) : l.toNat < 256 ^ l.length := by
  simpa [toNat] using foldl_lt l 0 1 (by decide)

theorem toNat_word_of_le {n : Nat} {l : Octets} (h : 8 * l.length ≤ n) : (l.word n).toNat = l.toNat := by
  rw [toNat_word, Nat.mod_eq_of_lt]
  calc l.toNat < 256 ^ l.length := l.toNat_lt
    _ = 2 ^ (8 * l.length) := by rw [pow_mul]; rfl
    _ ≤ 2 ^ n := Nat.pow_le_pow_right (by decide) h

/-- The `k` octets that write a number, the first the most significant. -/
def ofNat : Nat → Nat → Octets
  | 0, _ => []
  | k + 1, n => ofNat k (n / 256) ++ [BitVec.ofNat 8 n]

@[simp] theorem length_ofNat (k n : Nat) : (ofNat k n).length = k := by
  induction k generalizing n with
  | zero => rfl
  | succ k ih => rw [ofNat, length_append, ih, length_singleton]

theorem toNat_ofNat (k n : Nat) : (ofNat k n).toNat = n % 256 ^ k := by
  induction k generalizing n with
  | zero => rw [pow_zero, Nat.mod_one]; rfl
  | succ k ih =>
    have happ : (ofNat (k + 1) n).toNat = (ofNat k (n / 256)).toNat * 256 + (BitVec.ofNat 8 n).toNat := by
      rw [ofNat, toNat, foldl_append]; rfl
    rw [happ, ih, BitVec.toNat_ofNat, pow_succ' 256 k, Nat.mod_mul, Nat.add_comm, Nat.mul_comm]

theorem word_ofNat (k : Nat) (v : BitVec (8 * k)) : (ofNat k v.toNat).word (8 * k) = v := by
  have hpow : 256 ^ k = 2 ^ (8 * k) := by rw [pow_mul]; rfl
  refine BitVec.eq_of_toNat_eq ?_
  rw [toNat_word, toNat_ofNat, hpow, Nat.mod_mod, Nat.mod_eq_of_lt v.isLt]

end Octets

/-- What a binary floating-point pattern stands for. A finite single or double
is a whole number of units of `2⁻¹⁰⁷⁴`; the two zeros are the same number. -/
inductive FloatValue where
  | nan
  | infinite (negative : Bool)
  | finite (units : Int)
deriving DecidableEq

namespace FloatValue

/-- The value of a pattern with `m` fraction bits and `e` exponent bits, whose
least unit is `2 ^ s` of `2⁻¹⁰⁷⁴`. -/
def ofBits (e m s : Nat) (bits : Nat) : FloatValue :=
  let negative := decide (bits / 2 ^ (e + m) % 2 = 1)
  let exponent := bits / 2 ^ m % 2 ^ e
  let fraction := bits % 2 ^ m
  if exponent = 2 ^ e - 1 then if fraction = 0 then .infinite negative else .nan
  else
    let magnitude := if exponent = 0 then fraction * 2 ^ s else (2 ^ m + fraction) * 2 ^ (exponent - 1 + s)
    .finite (if negative then -magnitude else magnitude)

def single (b : BitVec 32) : FloatValue := ofBits 8 23 925 b.toNat

def double (b : BitVec 64) : FloatValue := ofBits 11 52 0 b.toNat

-- one half, as a single and as a double
example : single 0x3f000000 = double 0x3fe0000000000000 := by decide +kernel

/-- Equality of floating-point numbers: a NaN is equal to none. -/
def eq (a b : FloatValue) : Bool := decide (a ≠ .nan ∧ a = b)

end FloatValue

end QB
