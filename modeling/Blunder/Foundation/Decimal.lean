import Mathlib.Data.Nat.Init

/-!
# Decimal text of 64-bit words

Printing is Lean's `toString`: decimal digits without leading zeros. `parseU64`
reads an optional `+`, then a nonempty run of digits, and fails on any other
character and on a value that does not fit.

* `parseU64_toString`: reading what was printed gives the word back.
-/

namespace Foundation.Decimal

/-- The value of a nonempty run of decimal digits that fits a word. -/
def ofDigits (digits : List Char) : Option UInt64 :=
  if digits ≠ [] ∧ digits.all Char.isDigit ∧ Nat.ofDigitChars 10 digits 0 < UInt64.size then
    some (UInt64.ofNat (Nat.ofDigitChars 10 digits 0))
  else
    none

/-- Decimal text to a word, with an optional leading `+`. -/
def parseU64 (text : String) : Option UInt64 :=
  match text.toList with
  | '+' :: digits => ofDigits digits
  | digits => ofDigits digits

theorem toList_toString (n : UInt64) : (toString n).toList = Nat.toDigits 10 n.toNat :=
  Nat.toList_repr

theorem ofDigits_toDigits (n : UInt64) : ofDigits (Nat.toDigits 10 n.toNat) = some n := by
  have hDigits : (Nat.toDigits 10 n.toNat).all Char.isDigit = true :=
    List.all_eq_true.mpr fun _ hc => Nat.isDigit_of_mem_toDigits (by omega) (by omega) hc
  have hFits : n.toNat < UInt64.size := n.toNat_lt
  simp [ofDigits, hDigits, hFits, Nat.toDigits_ne_nil]

/-- A printed word starts with a digit, so no sign is read off it. -/
theorem parseU64_toString (n : UInt64) : parseU64 (toString n) = some n := by
  unfold parseU64
  rw [toList_toString]
  split
  · rename_i digits hEq
    have hPlus : '+' ∈ Nat.toDigits 10 n.toNat := by simp [hEq]
    have := Nat.isDigit_of_mem_toDigits (by omega) (by omega) hPlus
    cases this
  · exact ofDigits_toDigits n

end Foundation.Decimal
