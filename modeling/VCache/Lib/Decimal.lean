import Mathlib.Tactic.Common

/-!
# Decimal text

`decimal n` is what `std::to_string` prints of a natural number, `decimalValue` the number a
run of digits stands for.
-/

namespace VCache.Lib

/-- The ASCII digit of `d < 10`. -/
def digit (d : Nat) : UInt8 := UInt8.ofNat (48 + d)

/-- The digits of `n`, the last one found first. `n + 1` rounds are enough. -/
def decimalRounds : Nat → Nat → List UInt8
  | 0, _ => []
  | fuel + 1, n => if n < 10 then [digit n] else decimalRounds fuel (n / 10) ++ [digit (n % 10)]

def decimal (n : Nat) : List UInt8 := decimalRounds (n + 1) n

def isDigit (c : UInt8) : Bool := 48 ≤ c && c ≤ 57

def digitValue (c : UInt8) : Nat := c.toNat - 48

def pushDigit (value : Nat) (c : UInt8) : Nat := value * 10 + digitValue c

def decimalValue (digits : List UInt8) : Nat := digits.foldl pushDigit 0

theorem digitValue_digit {d : Nat} (h : d < 10) : digitValue (digit d) = d := by
  simp only [digitValue, digit, UInt8.toNat_ofNat']
  omega

theorem isDigit_digit {d : Nat} (h : d < 10) : isDigit (digit d) = true := by
  simp only [isDigit, digit, Bool.and_eq_true, decide_eq_true_eq, UInt8.le_iff_toNat_le,
    UInt8.toNat_ofNat']
  refine ⟨?_, ?_⟩
  · show 48 ≤ (48 + d) % 256
    omega
  · show (48 + d) % 256 ≤ 57
    omega

theorem decimalRounds_ne_nil : ∀ fuel n, decimalRounds (fuel + 1) n ≠ []
  | fuel, n => by
    unfold decimalRounds
    split <;> simp

theorem decimal_ne_nil (n : Nat) : decimal n ≠ [] := decimalRounds_ne_nil n n

theorem isDigit_of_mem_decimalRounds : ∀ {fuel n : Nat} {c : UInt8},
    c ∈ decimalRounds fuel n → isDigit c = true
  | 0, _, _, h => by simp [decimalRounds] at h
  | fuel + 1, n, c, h => by
    unfold decimalRounds at h
    split at h
    next hn =>
      rw [List.mem_singleton] at h
      rw [h]
      exact isDigit_digit hn
    next hn =>
      rcases List.mem_append.1 h with h | h
      · exact isDigit_of_mem_decimalRounds h
      · rw [List.mem_singleton] at h
        rw [h]
        exact isDigit_digit (by omega)

theorem isDigit_of_mem_decimal {n : Nat} {c : UInt8} (h : c ∈ decimal n) : isDigit c = true :=
  isDigit_of_mem_decimalRounds h

theorem decimalValue_decimalRounds : ∀ {fuel n : Nat}, n < fuel →
    decimalValue (decimalRounds fuel n) = n
  | fuel + 1, n, h => by
    unfold decimalRounds
    split
    next hn =>
      show 0 * 10 + digitValue (digit n) = n
      rw [digitValue_digit hn]
      omega
    next hn =>
      have ih : decimalValue (decimalRounds fuel (n / 10)) = n / 10 :=
        decimalValue_decimalRounds (by omega)
      unfold decimalValue at ih ⊢
      rw [List.foldl_append, ih]
      show n / 10 * 10 + digitValue (digit (n % 10)) = n
      rw [digitValue_digit (by omega)]
      omega

theorem decimalValue_decimal (n : Nat) : decimalValue (decimal n) = n :=
  decimalValue_decimalRounds (by omega)

end VCache.Lib
