import Mathlib.Init

/-!
# The expiration of a message

`broker/Message.cpp`, `broker/ExpiryPolicy.cpp` and `sys/posix/Time.cpp`: when a message with
a time to live expires, and what is left of that time when it is delivered.

* Times and durations are `int64_t` counts of nanoseconds. A sum of them that overflows, which the
  language leaves undefined, wraps.
* The clock is an argument, as the expiry policy reads the same one.
-/

namespace QB.Impl

/-- `AbsTime`: its `timepoint`. -/
abbrev AbsTime := Int64

/-- `FAR_FUTURE`. -/
def AbsTime.farFuture : AbsTime := Int64.maxValue

def AbsTime.after (t : AbsTime) (d : Int64) : AbsTime := if d = Int64.maxValue then AbsTime.farFuture else t + d

def timeMsec : UInt64 := 1000000

/-- What `Message` keeps of a time to live: that of its encoding, the expiration and whether there is a policy. -/
structure ExpiringMessage where
  ttl : Option UInt64
  expiration : AbsTime := AbsTime.farFuture
  expiryPolicy : Bool := false

namespace ExpiringMessage

/-- `computeExpiration(e)`, for a policy whose current time is `now`. -/
def computeExpiration (m : ExpiringMessage) (now : AbsTime) : ExpiringMessage :=
  match m.ttl with
  | none => m
  | some ttl =>
    -- the product is `uint64_t` and wraps before it is clamped
    let duration := min (ttl * timeMsec) Int64.maxValue.toUInt64
    { m with expiration := now.after duration.toInt64, expiryPolicy := true }

def hasExpired (m : ExpiringMessage) (now : AbsTime) : Bool := m.expiryPolicy && m.expiration < now

def getTtl (m : ExpiringMessage) (now : AbsTime) : UInt64 :=
  if m.ttl.isSome ∧ m.expiration < AbsTime.farFuture then
    let ttl := m.expiration - now
    -- convert from ns to ms; set to 1 if expired
    if ttl ≥ 1000000 then (ttl / 1000000).toUInt64 else 1
  else 0

/-- `getTtl(ttl)`: what it sets `ttl` to, if it returns true. -/
def getTtlInto (m : ExpiringMessage) (now : AbsTime) : Option UInt64 :=
  if m.ttl.isSome ∧ m.expiration < AbsTime.farFuture then
    let remaining := m.expiration - now
    -- convert from ns to ms; set to 0 if expired
    some (if remaining ≥ 1000000 then (remaining / 1000000).toUInt64 else 0)
  else none

end ExpiringMessage

end QB.Impl
