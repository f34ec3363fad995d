import QpidBroker.Spec.Expiration

/-!
# Messages expire on time

The expiration is the exact sum as long as the product and the sum fit, and
`FAR_FUTURE` where the product is clamped (`expiration_eq`). What is left of the time to live follows from it.
-/

namespace QB.Impl.ExpiringMessage

variable {ttl z : UInt64} {arrival now : AbsTime}

theorem toInt_toInt64 {x : UInt64} (h : x.toNat < 2 ^ 63) : x.toInt64.toInt = x.toNat := by
  exact if_pos (by simpa using (by omega : 2 * x.toNat < 2 ^ 64))

theorem toNat_toUInt64 {x : Int64} (h : 0 ≤ x.toInt) : (x.toUInt64.toNat : Int) = x.toInt := by
  have hlt : x.toUInt64.toNat < 2 ^ 63 := by
    have hx := UInt64.toNat_lt x.toUInt64
    rw [← Int64.toInt_toBitVec, ← Int64.toBitVec_toUInt64, BitVec.toInt_eq_toNat_cond] at h
    simp only [UInt64.toNat_toBitVec] at h
    omega
  rw [← toInt_toInt64 hlt, Int64.toInt64_toUInt64]

theorem toInt_duration (h : ttl.toNat * 1000000 < 2 ^ 64) :
    (min (ttl * timeMsec) Int64.maxValue.toUInt64).toInt64.toInt = min (ttl.toNat * 1000000) (2 ^ 63 - 1) := by
  have hm : (min (ttl * timeMsec) Int64.maxValue.toUInt64).toNat = min (ttl.toNat * 1000000) (2 ^ 63 - 1) := by
    rw [UInt64.toNat_min, UInt64.toNat_mul]
    exact congrArg (min · _) (Nat.mod_eq_of_lt h)
  rw [toInt_toInt64 (by omega), hm]

theorem expiration_eq (hpos : 0 < arrival.toInt) (h : Fits ttl arrival) :
    (computeExpiration { ttl := some ttl } arrival).expiration.toInt =
      min (arrival.toInt + ttl.toNat * 1000000) (2 ^ 63 - 1) := by
  have hd : (min (ttl * timeMsec) Int64.maxValue.toUInt64).toInt64.toInt = min (ttl.toNat * 1000000) (2 ^ 63 - 1) :=
    toInt_duration (by rcases h with h | h <;> omega)
  have hmax : Int64.maxValue.toInt = 2 ^ 63 - 1 := by decide
  simp only [computeExpiration, AbsTime.after, ← Int64.toInt_inj]
  split
  · rw [AbsTime.farFuture]
    omega
  · rw [Int64.toInt_add, Int.bmod_eq_of_le_mul_two] <;> rcases h with h | h <;> omega

theorem left_le {r : Int64} (hr : r.toInt ≤ ttl.toNat * 1000000) :
    (if r ≥ 1000000 then (r / 1000000).toUInt64 else z).toNat ≤ max ttl.toNat z.toNat := by
  have hmsec : (1000000 : Int64).toInt = 1000000 := by decide
  split
  swap
  · omega
  rename_i h
  rw [ge_iff_le, Int64.le_iff_toInt_le] at h
  have hq : (r / 1000000).toInt = r.toInt / 1000000 := by
    have := Int64.toInt_lt r
    rw [Int64.toInt_div, hmsec, Int.tdiv_eq_ediv_of_nonneg (by omega), Int.bmod_eq_of_le_mul_two] <;> omega
  have := toNat_toUInt64 (x := r / 1000000) (by omega)
  omega

/-- A message whose time to live fits does not expire before it has elapsed and does so at every later instant,
and what is left of it is no longer than it was, or than a millisecond. -/
theorem expires_on_time (hpos : 0 < arrival.toInt) (h : Fits ttl arrival) (hnow : arrival ≤ now) :
    let m := computeExpiration { ttl := some ttl } arrival
    (now.toInt < arrival.toInt + ttl.toNat * 1000000 → m.hasExpired now = false) ∧
      (arrival.toInt + ttl.toNat * 1000000 < now.toInt → m.hasExpired now = true) ∧
      (m.getTtl now).toNat ≤ max ttl.toNat 1 ∧ ∀ left, m.getTtlInto now = some left → left ≤ ttl := by
  have he := expiration_eq hpos h
  have hlt := Int64.toInt_lt now
  rw [Int64.le_iff_toInt_le] at hnow
  have hr : ((computeExpiration { ttl := some ttl } arrival).expiration - now).toInt ≤ ttl.toNat * 1000000 := by
    rw [Int64.toInt_sub, Int.bmod_eq_of_le_mul_two] <;> omega
  have hexp : (computeExpiration { ttl := some ttl } arrival).hasExpired now = true ↔
      min (arrival.toInt + ttl.toNat * 1000000) (2 ^ 63 - 1) < now.toInt := by
    rw [← he, ← Int64.lt_iff_toInt_lt]
    exact decide_eq_true_iff
  refine ⟨fun h => ?_, fun h => hexp.2 (by omega), ?_, fun left hl => ?_⟩
  · rw [← Bool.not_eq_true, hexp]
    omega
  · unfold getTtl
    split
    exacts [left_le hr, Nat.zero_le _]
  unfold getTtlInto at hl
  split at hl
  · cases hl
    simpa [UInt64.le_iff_toNat_le] using left_le (z := 0) hr
  · cases hl

theorem expires_on_time_second : (computeExpiration { ttl := some 1000 } 5).hasExpired 1000000006 = true ∧
    (computeExpiration { ttl := some 1000 } 5).hasExpired 1000000004 = false :=
  ⟨(expires_on_time (by decide) (.inl (by decide)) (by decide)).2.1 (by decide),
    (expires_on_time (by decide) (.inl (by decide)) (by decide)).1 (by decide)⟩

/-- A time to live of zero is delivered as a millisecond; one whose product wraps expires at once. -/
theorem expires_not_on_time : (computeExpiration { ttl := some 0 } 5).getTtl 5 = 1 ∧
    (computeExpiration { ttl := some 18446744073710 } 5).hasExpired 1000000 = true := by
  decide

end QB.Impl.ExpiringMessage
