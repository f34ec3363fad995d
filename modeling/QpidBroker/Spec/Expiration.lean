import QpidBroker.Impl.Expiration
import Mathlib.Data.UInt

/-!
# Times to live that can be added to a time of arrival
-/

namespace QB.Impl.ExpiringMessage

/-- The time to live and the arrival fit, or the time to live is clamped. -/
def Fits (ttl : UInt64) (arrival : AbsTime) : Prop :=
  arrival.toInt + ttl.toNat * 1000000 < 2 ^ 63 ∨ 2 ^ 63 - 1 ≤ ttl.toNat * 1000000 ∧ ttl.toNat * 1000000 < 2 ^ 64

end QB.Impl.ExpiringMessage
