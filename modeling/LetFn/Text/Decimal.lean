/-!
# Decimal integers

Reading takes an optional sign and at least one ASCII digit, with any number of
leading zeros; a value that does not fit in 64 bits is refused. Writing gives
the digits without leading zeros, after a minus sign where the value is negative.
-/

namespace LetFn.Decimal

def value (digits : List Char) : Nat := Nat.ofDigitChars 10 digits 0

/-- Reads one or more digits and nothing else. -/
def nat? (cs : List Char) : Option Nat :=
  if !cs.isEmpty && cs.all Char.isDigit then some (value cs) else none

/-- Reads digits after at most one sign. -/
def int? : List Char → Option Int
  | '+' :: cs => (nat? cs).map fun n => (n : Int)
  | '-' :: cs => (nat? cs).map fun n => -(n : Int)
  | cs => (nat? cs).map fun n => (n : Int)

def fits (i : Int) : Bool := Int64.minValue.toInt ≤ i && i ≤ Int64.maxValue.toInt

theorem fits_iff {i : Int} :
    fits i = true ↔ -9223372036854775808 ≤ i ∧ i ≤ 9223372036854775807 := by
  have hmin : Int64.minValue.toInt = -9223372036854775808 := by decide
  have hmax : Int64.maxValue.toInt = 9223372036854775807 := by decide
  simp [fits, hmin, hmax]

def int64? (cs : List Char) : Option Int64 :=
  match int? cs with
  | some i => if fits i then some (Int64.ofInt i) else none
  | none => none

/-- The digits of an integer, after its sign where that is minus. -/
def write (i : Int) : List Char :=
  if i < 0 then '-' :: Nat.toDigits 10 i.natAbs else Nat.toDigits 10 i.natAbs

@[simp] theorem value_nil : value [] = 0 := rfl

@[simp] theorem value_toDigits (n : Nat) : value (Nat.toDigits 10 n) = n :=
  Nat.ofDigitChars_toDigits (by decide) (by decide)

@[simp] theorem nat?_nil : nat? [] = none := rfl

end LetFn.Decimal
