import Mathlib.Tactic.Common

/-!
# 64-bit arithmetic

Signed 64-bit numbers: the exact result of an operation, when it is in range, and what is left
of it in two's complement when it is not.
-/

namespace VCache.Lib

/-- The numbers a signed 64-bit word can hold. -/
def IsInt64 (n : Int) : Prop := -9223372036854775808 ≤ n ∧ n ≤ 9223372036854775807

instance (n : Int) : Decidable (IsInt64 n) := inferInstanceAs (Decidable (_ ∧ _))

/-- What 64 bits keep of a number, in two's complement. -/
def wrap64 (n : Int) : Int :=
  (n + 9223372036854775808) % 18446744073709551616 - 9223372036854775808

theorem isInt64_wrap64 (n : Int) : IsInt64 (wrap64 n) := by
  unfold IsInt64 wrap64
  omega

theorem wrap64_eq_self {n : Int} (h : IsInt64 n) : wrap64 n = n := by
  unfold IsInt64 at h
  unfold wrap64
  omega

namespace Checked

/-- `n` as the result of an operation; `none` on overflow. -/
def result (n : Int) : Option Int := if IsInt64 n then some n else none

def add (a b : Int) : Option Int := result (a + b)

def sub (a b : Int) : Option Int := result (a - b)

def mul (a b : Int) : Option Int := result (a * b)

theorem bind_result {α : Type} (n : Int) (f : Int → Option α) :
    (result n >>= f) = if IsInt64 n then f n else none := by
  unfold result
  split <;> rfl

end Checked

end VCache.Lib
