import Mathlib.Logic.Function.Basic

/-!
# Bytes, clocks and entries

`Entry.h`. A `std::string` is a list of bytes, a `Clock::time_point` a number of
nanoseconds. Every function that reads a clock takes the reading as an argument.
-/

namespace VCache

/-- A `std::string`: any bytes, any length. -/
abbrev Bytes := List UInt8

/-- The bytes of an ASCII literal. -/
def bytes (s : String) : Bytes := s.toList.map fun c => UInt8.ofNat c.toNat

/-- A record of the database. No `expiration` means the key never expires. -/
structure Entry where
  key : Bytes
  value : Bytes
  expiration : Option Int := none
  deriving DecidableEq, Repr

namespace Entry

def hasExpiration (e : Entry) : Bool := e.expiration.isSome

def isExpiredAt (e : Entry) (now : Int) : Bool :=
  match e.expiration with
  | some t => decide (t ≤ now)
  | none => false

end Entry

end VCache
