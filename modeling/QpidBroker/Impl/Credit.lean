import Mathlib.Data.BitVec

/-!
# Credit

`broker/Credit.{h,cpp}`: message and byte credit, either granted once or as a
window that moves on as deliveries are completed.
-/

namespace QB.Impl

/-- `CreditBalance`, and the `used` that `CreditWindow` adds to it. -/
structure CreditBalance where
  balance : BitVec 32 := 0
  used : BitVec 32 := 0
deriving DecidableEq

namespace CreditBalance

def infiniteCredit : BitVec 32 := 0xFFFFFFFF

def clear (c : CreditBalance) : CreditBalance := { c with balance := 0 }

def unlimited (c : CreditBalance) : Bool := c.balance = infiniteCredit

def grant (c : CreditBalance) (value : BitVec 32) : CreditBalance :=
  if c.balance ≠ infiniteCredit then
    if value = infiniteCredit then { c with balance := infiniteCredit }
    else if infiniteCredit - c.balance > value then { c with balance := c.balance + value }
    else { c with balance := infiniteCredit - 1 }
  else c

def consume (c : CreditBalance) (window : Bool) (value : BitVec 32) : CreditBalance :=
  if c.unlimited then c
  else if window then { c with used := c.used + value }
  else { c with balance := c.balance - value }

def check (c : CreditBalance) (window : Bool) (required : BitVec 32) : Bool :=
  if window then c.balance ≥ c.used + required else c.balance ≥ required

def move (c : CreditBalance) (value : BitVec 32) : CreditBalance :=
  if c.unlimited then c else { c with used := c.used - value }

end CreditBalance

structure CreditPair where
  messages : CreditBalance := {}
  bytes : CreditBalance := {}
deriving DecidableEq

structure Credit where
  balance : CreditPair := {}
  window : CreditPair := {}
  windowing : Bool := true
deriving DecidableEq

namespace Credit

/-- What `messages()` and `bytes()` return references to. -/
def current (c : Credit) : CreditPair := if c.windowing then c.window else c.balance

def setCurrent (c : Credit) (p : CreditPair) : Credit :=
  if c.windowing then { c with window := p } else { c with balance := p }

def setWindowMode (c : Credit) (b : Bool) : Credit := { c with windowing := b }

def addByteCredit (c : Credit) (value : BitVec 32) : Credit :=
  c.setCurrent { c.current with bytes := c.current.bytes.grant value }

def addMessageCredit (c : Credit) (value : BitVec 32) : Credit :=
  c.setCurrent { c.current with messages := c.current.messages.grant value }

def cancel (c : Credit) : Credit := c.setCurrent ⟨c.current.messages.clear, c.current.bytes.clear⟩

def moveWindow (c : Credit) (m b : BitVec 32) : Credit :=
  if c.windowing then { c with window := ⟨c.window.messages.move m, c.window.bytes.move b⟩ } else c

def consume (c : Credit) (m b : BitVec 32) : Credit :=
  c.setCurrent ⟨c.current.messages.consume c.windowing m, c.current.bytes.consume c.windowing b⟩

def check (c : Credit) (m b : BitVec 32) : Bool :=
  c.current.messages.check c.windowing m && c.current.bytes.check c.windowing b

end Credit

end QB.Impl
